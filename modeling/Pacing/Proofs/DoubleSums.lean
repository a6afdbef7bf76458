import Pacing.Store.Arithmetic
import Pacing.Proofs.DoubleParts

/-!
# Sums of doubles without a minus sign

A sum that keeps track of what rounding takes from it does not change when zeros are added on the
way. This is so for numbers without a minus sign: the running sum is then never the negative zero,
which a zero would turn into the positive one. Once the running sum is infinite, what rounding has
taken is no longer finite, and the sum does without it.
-/

namespace Pacing.Double

open Float.Model Float.Model.UnpackedFloat

-- Powers are those of the core library, whatever else is in scope.
attribute [local instance (high)] instPowNat instNatPowNat

/-! ## Signs -/

/-- The sign of an unpacked double, if it is a number. -/
def sign? : UnpackedFloat → Option Sign
  | .notANumber => none
  | .infinity s | .zero s | .finite s _ _ _ => some s

/-- The sign bit of a double can be read back, unless the double is not a number. -/
theorem sign?_unpack_packComponents (s : Sign) (e : BitVec 11) (m : BitVec 52)
    (h : e = -1#11 → m = 0) :
    sign? (UnpackedFloat.unpack Format.binary64 (packComponents Format.binary64 s e m)) =
      some s := by
  unfold UnpackedFloat.unpack
  simp only [unpackExponent_packComponents, unpackMantissa_packComponents,
    unpackSign_packComponents, Sign.ofBitVec_toBitVec]
  split_ifs with hfull hzero
  · rfl
  · exact absurd (h hfull) hzero
  · rfl
  · rfl
  · rfl

/-- Packing can lose bits of a number, but it keeps the sign. -/
theorem sign?_unpack_pack (u : UnpackedFloat) : sign? (Float.Model.pack u).unpack = sign? u := by
  change sign? (UnpackedFloat.unpack Format.binary64 (UnpackedFloat.pack Format.binary64 u)) = _
  fun_cases UnpackedFloat.pack Format.binary64 u with
  | case1 => rfl
  | case2 s => exact sign?_unpack_packComponents s _ _ fun _ => rfl
  | case3 s => exact sign?_unpack_packComponents s _ _ fun _ => rfl
  | case4 s m e hm => exact sign?_unpack_packComponents s _ _ fun _ => rfl
  | case5 s m e hm _ biased hbiased =>
    refine sign?_unpack_packComponents s _ _ fun hfull => ?_
    have hlt : biased + 1 < 2 ^ (11 : Nat) := Nat.not_le.mp hbiased
    have hnat := congrArg BitVec.toNat hfull
    rw [BitVec.toNat_ofNat, Nat.mod_eq_of_lt (by omega), show (-1#11).toNat = 2047 from rfl] at hnat
    omega
  | case6 s m e hm => exact sign?_unpack_packComponents s _ _ fun hfull => absurd hfull (by decide)

/-- Rounding keeps the sign, also where it ends in zero or infinity. -/
theorem sign?_roundWithAccuracy (s : Sign) (m : Nat) (e : Int) (a : Accuracy) :
    sign? (roundWithAccuracy Format.binary64 s m e a) = some s := by
  unfold roundWithAccuracy
  dsimp only
  split <;> rfl

/-- A product has the product of the signs. -/
theorem sign?_mul_finite (s s' : Sign) {m m' : Nat} (e e' : Int) (hm : 0 < m) (hm' : 0 < m') :
    sign? (UnpackedFloat.mul Format.binary64 (.finite s m e hm) (.finite s' m' e' hm')) =
      some (s * s') :=
  sign?_roundWithAccuracy (s * s') (m * m') (e + e') .exact

/-- A sum that is not negative gets a positive sign. -/
theorem sign?_normalize_of_nonneg {m : Int} (hm : 0 ≤ m) (e : Int) :
    sign? (UnpackedFloat.normalize Format.binary64 m e .positive) = some .positive := by
  unfold UnpackedFloat.normalize
  split
  · rename_i hlt
    exact absurd (Int.compare_eq_lt.mp hlt) (Int.not_lt.mpr hm)
  · rfl
  · exact sign?_roundWithAccuracy .positive _ _ _

/-- A sum of finite numbers has a sign, so it is a number. -/
theorem isSome_sign?_normalize (m e : Int) :
    (sign? (UnpackedFloat.normalize Format.binary64 m e .positive)).isSome = true := by
  unfold UnpackedFloat.normalize
  split
  · exact congrArg Option.isSome (sign?_roundWithAccuracy .negative _ _ _)
  · rfl
  · exact congrArg Option.isSome (sign?_roundWithAccuracy .positive _ _ _)

/-- A double that is a number without a minus sign. -/
def IsUnsigned (x : Float) : Prop := sign? x.toModel.unpack = some .positive

variable {x y z : Float}

/-- A double is what its bits are unpacked and packed as. -/
theorem ofModel_pack_unpack (x : Float) : Float.ofModel (.pack x.toModel.unpack) = x :=
  Float.ofBits_toBits x

/-- A double is without a minus sign when what it was packed from has a positive sign. -/
theorem isUnsigned_ofModel_pack {u : UnpackedFloat} :
    IsUnsigned (.ofModel (.pack u)) ↔ sign? u = some .positive := by
  rw [← sign?_unpack_pack u]
  rfl

/-- The double `0` is unpacked as a positive zero. -/
theorem unpack_zero : (0 : Float).toModel.unpack = .zero .positive := rfl

/-- The double `-0` is unpacked as a negative zero. -/
theorem unpack_negZero : (-0 : Float).toModel.unpack = .zero .negative := rfl

/-- The double `0` is without a minus sign. -/
theorem isUnsigned_zero : IsUnsigned 0 := rfl

/-- A double without a minus sign has bits without it. -/
theorem IsUnsigned.toBits_lt (hx : IsUnsigned x) : x.toBits.toNat < 2 ^ (63 : Nat) := by
  have hsign : Sign.ofBitVec (@unpackSign Format.binary64 x.toModel.toBits.toBitVec) =
      .positive := by
    change sign? (UnpackedFloat.unpack Format.binary64 x.toModel.toBits.toBitVec) = _ at hx
    unfold UnpackedFloat.unpack at hx
    dsimp only at hx
    split_ifs at hx <;> first | exact Option.some.inj hx | cases hx
  have hbit := toNat_unpackSign x.toModel.toBits.toBitVec
  have hzero : @unpackSign Format.binary64 x.toModel.toBits.toBitVec = 0#1 := by
    generalize @unpackSign Format.binary64 x.toModel.toBits.toBitVec = b at hsign
    have hbits : ∀ b : BitVec 1, b = 0#1 ∨ b = 1#1 := by decide
    rcases hbits b with rfl | rfl
    · rfl
    · cases hsign
  rw [hzero] at hbit
  exact (Nat.div_eq_zero_iff_lt (by decide)).mp hbit.symm

/-- Doubles without a minus sign have a sum without one. -/
theorem IsUnsigned.add (hx : IsUnsigned x) (hy : IsUnsigned y) : IsUnsigned (x + y) := by
  refine isUnsigned_ofModel_pack.mpr ?_
  unfold IsUnsigned at hx hy
  generalize x.toModel.unpack = u at hx
  generalize y.toModel.unpack = v at hy
  cases u <;> cases v <;> cases hx <;> cases hy
  case finite.finite m e hm m' e' hm' =>
    exact sign?_normalize_of_nonneg (Int.add_nonneg (Int.natCast_nonneg _) (Int.natCast_nonneg _)) _
  all_goals rfl

/-- Multiplying by one brings no minus sign. -/
theorem IsUnsigned.mul_one (hx : IsUnsigned x) : IsUnsigned (x * 1) := by
  refine isUnsigned_ofModel_pack.mpr ?_
  have hone : ∃ m e hm, (1 : Float).toModel.unpack = .finite .positive m e hm := ⟨_, _, _, rfl⟩
  obtain ⟨m', e', hm', hone⟩ := hone
  unfold IsUnsigned at hx
  rw [hone]
  generalize x.toModel.unpack = u at hx
  cases u <;> cases hx
  case finite m e hm => exact sign?_mul_finite .positive .positive _ _ _ _
  all_goals rfl

/-- A natural number below `2 ^ 53` becomes a double by way of a machine word. -/
theorem ofNat_of_lt {n : Nat} (h : n < 2 ^ (53 : Nat)) :
    Float.ofNat n = n.toUInt64.toFloat * 1 := by
  change Float.ofScientific n false 0 = _
  rw [Float.ofScientific, dif_pos ⟨h, by decide⟩, if_neg (by decide)]
  rfl

/-- A larger natural number becomes the double nearest to it. -/
theorem ofNat_of_le {n : Nat} (h : 2 ^ (53 : Nat) ≤ n) :
    Float.ofNat n = .ofModel (.pack (UnpackedFloat.ofScientific Format.binary64 n 0)) := by
  change Float.ofScientific n false 0 = _
  rw [Float.ofScientific, dif_neg fun hlt => absurd hlt.1 (Nat.not_lt.mpr h)]
  rfl

/-- A whole number that is not below zero becomes a double without a minus sign. -/
theorem isUnsigned_ofInt {n : Int} (hn : 0 ≤ n) : IsUnsigned (.ofInt n) := by
  obtain ⟨n, rfl⟩ := Int.eq_ofNat_of_zero_le hn
  change IsUnsigned (.ofNat n)
  rcases Nat.lt_or_ge n (2 ^ (53 : Nat)) with hlt | hle
  · rw [ofNat_of_lt hlt]
    refine IsUnsigned.mul_one ?_
    exact isUnsigned_ofModel_pack.mpr (sign?_normalize_of_nonneg (Int.natCast_nonneg _) 0)
  · rw [ofNat_of_le hle]
    refine isUnsigned_ofModel_pack.mpr ?_
    have hexponent : (0 : Int) ≤ 2 ^ Format.binary64.exponentBits + n.log2 := by positivity
    rw [UnpackedFloat.ofScientific, dif_neg (by omega), if_neg (by decide), if_neg (by omega),
      if_pos le_rfl]
    exact sign?_mul_finite .positive .positive _ _ _ _

/-- Doubles are compared as what they are unpacked as. -/
theorem lt_iff : x < y ↔ x.toModel.unpack.lt y.toModel.unpack = true := decide_eq_true_iff

/-- A number that is not below zero has no minus sign, unless it is the negative zero. -/
theorem isUnsigned_or_eq_negZero (hnumber : x.isNaN = false) (hneg : ¬x < 0) :
    IsUnsigned x ∨ x = -0 := by
  have hx := ofModel_pack_unpack x
  change x.toModel.unpack.isNaN = false at hnumber
  rw [lt_iff, unpack_zero] at hneg
  unfold IsUnsigned
  generalize x.toModel.unpack = u at hx hnumber hneg
  subst hx
  cases u with
  | notANumber => cases hnumber
  | infinity s =>
    cases s with
    | positive => exact .inl rfl
    | negative => exact absurd rfl hneg
  | zero s =>
    cases s with
    | positive => exact .inl rfl
    | negative => exact .inr rfl
  | finite s m e hm =>
    cases s with
    | positive => exact .inl rfl
    | negative => exact absurd rfl hneg

/-- The sum of two doubles does not depend on their order. -/
theorem add_comm (x y : Float) : x + y = y + x := by
  refine congrArg (fun u => Float.ofModel (.pack u)) ?_
  generalize x.toModel.unpack = u
  generalize y.toModel.unpack = v
  cases u <;> cases v
  case infinity.infinity s s' => cases s <;> cases s' <;> rfl
  case zero.zero s s' => cases s <;> cases s' <;> rfl
  case finite.finite => simp only [UnpackedFloat.add, min_comm, Int.add_comm]
  all_goals rfl

/-! ## What is not finite -/

/-- What is not finite stays so when it is packed. -/
theorem isFinite_ofModel_pack {u : UnpackedFloat} (h : u.isFinite = false) :
    (Float.ofModel (.pack u)).isFinite = false := by
  cases u with
  | infinity s => cases s <;> rfl
  | notANumber => rfl
  | zero s => cases h
  | finite s m e hm => cases h

/-- A sum is not finite if its first part is not. -/
theorem isFinite_add (y : Float) (h : x.isFinite = false) : (x + y).isFinite = false := by
  refine isFinite_ofModel_pack ?_
  change x.toModel.unpack.isFinite = false at h
  generalize x.toModel.unpack = u at h
  generalize y.toModel.unpack = v
  cases u <;> cases h
  case infinity s =>
    cases v
    case infinity s' => cases s <;> cases s' <;> rfl
    all_goals rfl
  case notANumber => rfl

/-- A difference is not finite if what is taken away is not. -/
theorem isFinite_sub (x : Float) (h : y.isFinite = false) : (x - y).isFinite = false := by
  refine isFinite_ofModel_pack ?_
  change y.toModel.unpack.isFinite = false at h
  generalize x.toModel.unpack = u
  generalize y.toModel.unpack = v at h
  cases v <;> cases h
  case infinity s =>
    cases u
    case infinity s' => cases s <;> cases s' <;> rfl
    all_goals rfl
  case notANumber => cases u <;> rfl

/-- What has a sign is packed as a number. -/
theorem isNaN_ofModel_pack {u : UnpackedFloat} (h : (sign? u).isSome = true) :
    (Float.ofModel (.pack u)).isNaN = false := by
  rw [← sign?_unpack_pack u] at h
  change (Float.Model.pack u).unpack.isNaN = false
  generalize (Float.Model.pack u).unpack = v at h
  cases v <;> first | rfl | cases h

/-- Finite doubles have a sum. -/
theorem isNaN_add (hx : x.isFinite = true) (hy : y.isFinite = true) : (x + y).isNaN = false := by
  refine isNaN_ofModel_pack ?_
  change x.toModel.unpack.isFinite = true at hx
  change y.toModel.unpack.isFinite = true at hy
  generalize x.toModel.unpack = u at hx
  generalize y.toModel.unpack = v at hy
  cases u <;> cases v <;> cases hx <;> cases hy
  case zero.zero s s' => cases s <;> cases s' <;> rfl
  case finite.finite s m e hm s' m' e' hm' => exact isSome_sign?_normalize _ _
  all_goals rfl

/-! ## Zeros -/

/-- The negative zero adds nothing to any double. -/
theorem add_negZero (x : Float) : x + -0 = x := by
  refine Eq.trans (congrArg (fun u => Float.ofModel (.pack u)) ?_) (ofModel_pack_unpack x)
  rw [unpack_negZero]
  generalize x.toModel.unpack = u
  cases u with
  | zero s => cases s <;> rfl
  | _ => rfl

/-- Zero adds nothing to a double other than the negative zero. -/
theorem add_zero (hx : x ≠ -0) : x + 0 = x := by
  have hpack := ofModel_pack_unpack x
  refine Eq.trans (congrArg (fun u => Float.ofModel (.pack u)) ?_) hpack
  rw [unpack_zero]
  generalize x.toModel.unpack = u at hpack
  cases u with
  | zero s =>
    cases s with
    | positive => rfl
    | negative => exact absurd hpack.symm hx
  | _ => rfl

/-- A double without a minus sign is a number. -/
theorem IsUnsigned.isNaN (hx : IsUnsigned x) : x.isNaN = false := by
  rw [← ofModel_pack_unpack x]
  exact isNaN_ofModel_pack (congrArg Option.isSome hx)

/-- A double without a minus sign is not `-0`. -/
theorem IsUnsigned.ne_negZero (hx : IsUnsigned x) : x ≠ -0 := by
  rintro rfl
  cases hx

/-- A finite double taken from itself leaves zero. -/
theorem sub_self (hx : x.isFinite = true) : x - x = 0 := by
  change x.toModel.unpack.isFinite = true at hx
  change Float.ofModel (.pack (UnpackedFloat.sub _ _ _)) = _
  generalize x.toModel.unpack = u at hx
  cases u with
  | infinity s => cases hx
  | notANumber => cases hx
  | zero s => cases s <;> rfl
  | finite s m e hm =>
    simp only [UnpackedFloat.sub, Int.sub_self]
    rfl

/-- A double without a minus sign is its own magnitude. -/
theorem IsUnsigned.abs_eq (hx : IsUnsigned x) : x.abs = x := by
  refine Eq.trans (congrArg (fun u => Float.ofModel (.pack u)) ?_) (ofModel_pack_unpack x)
  unfold IsUnsigned at hx
  generalize x.toModel.unpack = u at hx
  cases u <;> cases hx <;> rfl

/-- A double without a minus sign that is not greater than zero is zero. -/
theorem IsUnsigned.eq_zero (hx : IsUnsigned x) (hle : ¬x.abs > (0 : Float).abs) : x = 0 := by
  have hpack := ofModel_pack_unpack x
  rw [hx.abs_eq, isUnsigned_zero.abs_eq, gt_iff_lt, lt_iff, unpack_zero] at hle
  unfold IsUnsigned at hx
  generalize x.toModel.unpack = u at hpack hx hle
  cases u <;> cases hx
  case infinity => exact absurd rfl hle
  case zero => exact hpack.symm
  case finite m e hm => exact absurd rfl hle

/-! ## Sums -/

/-- Two doubles that stay alike when the same is added to both, as far as a sum uses them: they are
equal, zeros of either sign, or both not finite. -/
def Alike (x y : Float) : Prop :=
  x = y ∨ ((x = 0 ∨ x = -0) ∧ (y = 0 ∨ y = -0)) ∨ (x.isFinite = false ∧ y.isFinite = false)

/-- A zero of either sign adds nothing to a double other than the negative zero. -/
theorem zero_add (hx : x = 0 ∨ x = -0) (hy : y ≠ -0) : x + y = y := by
  rw [add_comm]
  rcases hx with rfl | rfl
  · exact add_zero hy
  · exact add_negZero y

namespace Alike

/-- Doubles that are alike stay alike when the same is added to both. -/
theorem add (h : Alike x y) (z : Float) : Alike (x + z) (y + z) := by
  rcases h with rfl | ⟨hx, hy⟩ | ⟨hx, hy⟩
  · exact .inl rfl
  · by_cases hz : z = -0
    · rw [hz, add_negZero, add_negZero]
      exact .inr (.inl ⟨hx, hy⟩)
    · exact .inl ((zero_add hx hz).trans (zero_add hy hz).symm)
  · exact .inr (.inr ⟨isFinite_add z hx, isFinite_add z hy⟩)

/-- Zero adds nothing, but for the sign of a zero. -/
theorem add_zero (x : Float) : Alike (x + 0) x := by
  by_cases hx : x = -0
  · rw [hx]
    exact .inr (.inl ⟨.inl rfl, .inr rfl⟩)
  · exact .inl (Double.add_zero hx)

/-- Doubles that are alike to a third one are alike. -/
theorem trans (h : Alike x y) (h' : Alike y z) : Alike x z := by
  have finite_zero {x : Float} (hx : x = 0 ∨ x = -0) : x.isFinite ≠ false := by
    rcases hx with rfl | rfl <;> decide
  rcases h with rfl | ⟨hx, hy⟩ | ⟨hx, hy⟩
  · exact h'
  · rcases h' with rfl | ⟨-, hz⟩ | ⟨hy', -⟩
    · exact .inr (.inl ⟨hx, hy⟩)
    · exact .inr (.inl ⟨hx, hz⟩)
    · exact absurd hy' (finite_zero hy)
  · rcases h' with rfl | ⟨hy', -⟩ | ⟨-, hz⟩
    · exact .inr (.inr ⟨hx, hy⟩)
    · exact absurd hy (finite_zero hy')
    · exact .inr (.inr ⟨hx, hz⟩)

/-- Of two doubles that are alike both are finite or neither is. -/
theorem isFinite_eq (h : Alike x y) : x.isFinite = y.isFinite := by
  rcases h with rfl | ⟨rfl | rfl, rfl | rfl⟩ | ⟨hx, hy⟩
  · rfl
  · rfl
  · rfl
  · rfl
  · rfl
  · rw [hx, hy]

end Alike

end Pacing.Double

namespace Pacing.Store

open Double

namespace CompensatedSum

/-- A sum in progress of numbers without a minus sign. When it is past the finite doubles, so is
what rounding has taken. -/
structure IsUnsigned (s : CompensatedSum) : Prop where
  total : Double.IsUnsigned s.total
  lost : s.total.isFinite = false → s.lost.isFinite = false

/-- Sums in progress that come to the same. -/
structure Alike (s s' : CompensatedSum) : Prop where
  total : s.total = s'.total
  lost : Double.Alike s.lost s'.lost

variable {s s' : CompensatedSum} {x : Float}

/-- The sum of nothing is without a minus sign. -/
theorem IsUnsigned.empty : IsUnsigned {} := ⟨isUnsigned_zero, fun h => absurd h (by decide)⟩

/-- Adding a number without a minus sign to a sum of such numbers makes another. -/
theorem IsUnsigned.add (h : s.IsUnsigned) (hx : Double.IsUnsigned x) : (s.add x).IsUnsigned := by
  refine ⟨h.total.add hx, fun hpast => ?_⟩
  change (s.lost + _).isFinite = false
  change (s.total + x).isFinite = false at hpast
  rw [Double.add_comm]
  refine isFinite_add _ ?_
  -- Whichever of the two is larger, the new sum is subtracted from it, and that is not finite.
  split
  · exact isFinite_add _ (isFinite_sub _ hpast)
  · exact isFinite_add _ (isFinite_sub _ hpast)

/-- Rounding takes nothing from a finite sum to which zero is added. -/
theorem taken_eq_zero (hx : Double.IsUnsigned x) (hfinite : x.isFinite = true) :
    (if x.abs > (0 : Float).abs then x - x + 0 else 0 - x + x) = 0 := by
  split
  · rw [Double.sub_self hfinite]
    rfl
  · rename_i hle
    rw [hx.eq_zero hle]
    rfl

/-- Adding zero does not change what a sum comes to. -/
theorem IsUnsigned.add_zero (h : s.IsUnsigned) : (s.add 0).Alike s := by
  have htotal : s.total + 0 = s.total := Double.add_zero h.total.ne_negZero
  have hpast := (h.add isUnsigned_zero).lost
  rw [show (s.add 0).total = s.total from htotal] at hpast
  refine ⟨htotal, ?_⟩
  cases hfinite : s.total.isFinite with
  | true =>
    have hlost : (s.add 0).lost = s.lost + 0 := by
      simp only [CompensatedSum.add, htotal, taken_eq_zero h.total hfinite]
    rw [hlost]
    exact Double.Alike.add_zero s.lost
  | false => exact .inr (.inr ⟨hpast hfinite, h.lost hfinite⟩)

/-- A sum in progress comes to the same as itself. -/
theorem Alike.refl (s : CompensatedSum) : s.Alike s := ⟨rfl, .inl rfl⟩

/-- Sums in progress that come to the same as a third one come to the same. -/
theorem Alike.trans {s'' : CompensatedSum} (h : s.Alike s') (h' : s'.Alike s'') : s.Alike s'' :=
  ⟨h.total.trans h'.total, h.lost.trans h'.lost⟩

/-- Sums in progress that come to the same still do when a number is added to both. -/
theorem Alike.add (h : s.Alike s') (x : Float) : (s.add x).Alike (s'.add x) := by
  obtain ⟨htotal, hlost⟩ := h
  refine ⟨congrArg (· + x) htotal, ?_⟩
  simp only [CompensatedSum.add, htotal]
  exact hlost.add _

/-- Sums in progress that come to the same have one value. -/
theorem Alike.value_eq (h : s.Alike s') (hs : s.IsUnsigned) : s.value = s'.value := by
  obtain ⟨htotal, hlost⟩ := h
  unfold value
  rw [← hlost.isFinite_eq, ← htotal]
  split
  · rename_i hfinite
    rcases hlost with heq | ⟨hzero, hzero'⟩ | ⟨hpast, -⟩
    · rw [heq]
    · rw [Double.add_comm, zero_add hzero hs.total.ne_negZero, Double.add_comm,
        zero_add hzero' hs.total.ne_negZero]
    · rw [hpast] at hfinite
      cases hfinite
  · rfl

/-- A sum of numbers without a minus sign is a number. -/
theorem IsUnsigned.isNaN_value (h : s.IsUnsigned) : s.value.isNaN = false := by
  unfold value
  split
  · rename_i hfinite
    refine isNaN_add ?_ hfinite
    cases htotal : s.total.isFinite with
    | true => rfl
    | false =>
      rw [h.lost htotal] at hfinite
      cases hfinite
  · exact h.total.isNaN

/-- Adding any number of them does too. -/
theorem IsUnsigned.foldl (h : s.IsUnsigned) {xs : List Float}
    (hxs : ∀ x ∈ xs, Double.IsUnsigned x) : (xs.foldl .add s).IsUnsigned := by
  induction xs generalizing s with
  | nil => exact h
  | cons x rest ih =>
    rw [List.forall_mem_cons] at hxs
    exact ih (h.add hxs.1) hxs.2

/-- Two sums that come to the same still do so when zeros are added to the first of them only. -/
theorem Alike.foldl_filter {α : Type} (h : s.Alike s') (hs : s.IsUnsigned) (p : α → Prop)
    [DecidablePred p] {f : α → Float} {xs : List α} (hxs : ∀ x ∈ xs, Double.IsUnsigned (f x)) :
    ((xs.map fun x => if p x then f x else 0).foldl .add s).Alike
      (((xs.filter p).map f).foldl .add s') := by
  induction xs generalizing s s' with
  | nil => exact h
  | cons x rest ih =>
    rw [List.forall_mem_cons] at hxs
    rw [List.map_cons, List.foldl_cons]
    by_cases hp : p x
    · rw [if_pos hp, List.filter_cons_of_pos (by simpa using hp), List.map_cons, List.foldl_cons]
      exact ih (h.add (f x)) (hs.add hxs.1) hxs.2
    · rw [if_neg hp, List.filter_cons_of_neg (by simpa using hp)]
      exact ih (hs.add_zero.trans h) (hs.add isUnsigned_zero) hxs.2

end CompensatedSum

variable {α : Type} {f : α → Float} {xs : List α}

/-- Zeros can be left out of a sum of numbers without a minus sign. -/
theorem compensatedSum_filter (p : α → Prop) [DecidablePred p]
    (h : ∀ x ∈ xs, Double.IsUnsigned (f x)) :
    compensatedSum (xs.map fun x => if p x then f x else 0) =
      compensatedSum ((xs.filter p).map f) := by
  refine ((CompensatedSum.Alike.refl {}).foldl_filter .empty p h).value_eq ?_
  refine CompensatedSum.IsUnsigned.empty.foldl fun y hy => ?_
  obtain ⟨x, hx, rfl⟩ := List.mem_map.mp hy
  split
  · exact h x hx
  · exact isUnsigned_zero

/-- Doubles without a minus sign have a number for their sum. -/
theorem isNaN_compensatedSum {xs : List Float} (h : ∀ x ∈ xs, Double.IsUnsigned x) :
    (compensatedSum xs).isNaN = false :=
  (CompensatedSum.IsUnsigned.empty.foldl h).isNaN_value

end Pacing.Store
