import Mathlib
import Pacing.Numeral

/-!
# What numerals stand for

A numeral is digits, perhaps behind a sign, and stands for the number that the digits make. Many
numerals stand for one number, but one of them alone is canonical: it has no plus sign, no zero
before its other digits and no minus sign before zero. That one is written, and all are read.
-/

namespace Pacing.Numeral

/-! ## Digits -/

/-- One or more ASCII digits. -/
def IsDigits (cs : List Char) : Prop := cs ≠ [] ∧ ∀ c ∈ cs, c.isDigit = true

variable {cs : List Char} {c : Char}

/-- A natural number is read from digits, as their value. -/
theorem natural?_eq_some_iff {n : Nat} :
    natural? cs = some n ↔ IsDigits cs ∧ Nat.ofDigitChars 10 cs 0 = n := by
  unfold natural? IsDigits
  simp

/-- A natural number is written in digits. -/
theorem isDigits_ofNat (n : Nat) : IsDigits (ofNat n) :=
  ⟨ofNat_ne_nil n, List.all_eq_true.mp (all_isDigit_ofNat n)⟩

/-- A character that is not a digit does not occur among digits. -/
theorem IsDigits.not_mem (h : IsDigits cs) (hc : c.isDigit = false) : c ∉ cs := fun hmem => by
  simp [h.2 c hmem] at hc

/-- A character that is not a digit is not the first of digits. -/
theorem IsDigits.head_ne {d : Char} (h : IsDigits (c :: cs)) (hd : d.isDigit = false) : c ≠ d := by
  rintro rfl
  exact h.not_mem hd List.mem_cons_self

/-- Every digit is that of a number below ten. -/
theorem exists_digit (hc : c.isDigit = true) : ∃ d < 10, Nat.digitChar d = c := by
  obtain ⟨hlow, hhigh⟩ := Char.isDigit_iff_toNat.mp hc
  have hzero : '0'.toNat = 48 := rfl
  have hnine : '9'.toNat = 57 := rfl
  refine ⟨c.toNat - 48, by omega, ?_⟩
  rw [← Char.toNat_inj, Nat.toNat_digitChar_of_lt_ten (by omega)]
  omega

/-- A positive number is not written with a zero first. -/
theorem head?_ofNat_ne_zero {n : Nat} (hn : 0 < n) : (ofNat n).head? ≠ some '0' := by
  unfold ofNat
  induction n using Nat.strongRecOn with
  | ind n ih =>
    by_cases hlt : n < 10
    · rw [Nat.toDigits_of_lt_base hlt]
      have : ∀ d < 10, 0 < d → Nat.digitChar d ≠ '0' := by decide
      simpa using this n hlt hn
    · rw [Nat.toDigits_of_base_le (by decide) (by omega), List.head?_append_of_ne_nil]
      · exact ih (n / 10) (by omega) (by omega)
      · exact Nat.toDigits_ne_nil

/-- Digits of which the first is not zero are those of the number that they make. -/
theorem ofNat_ofDigitChars (h : IsDigits cs) (hzero : cs.head? ≠ some '0') :
    0 < Nat.ofDigitChars 10 cs 0 ∧ ofNat (Nat.ofDigitChars 10 cs 0) = cs := by
  induction cs using List.reverseRecOn with
  | nil => exact absurd rfl h.1
  | append_singleton front c ih =>
    obtain ⟨d, hd, rfl⟩ := exists_digit (h.2 c (by simp))
    rw [Nat.ofDigitChars_append, Nat.ofDigitChars_cons_digitChar_of_lt_ten hd, Nat.ofDigitChars_nil]
    by_cases hfront : front = []
    · subst hfront
      have hpos : d ≠ 0 := by
        rintro rfl
        exact hzero rfl
      refine ⟨by simpa using Nat.pos_of_ne_zero hpos, ?_⟩
      simp [ofNat, Nat.toDigits_of_lt_base hd]
    · rw [List.head?_append_of_ne_nil _ hfront] at hzero
      obtain ⟨hpos, hdigits⟩ := ih ⟨hfront, fun c hc => h.2 c (by simp [hc])⟩ hzero
      refine ⟨by omega, ?_⟩
      rw [ofNat, ← Nat.toDigits_append_toDigits (by decide) hpos hd, Nat.toDigits_of_lt_base hd]
      rw [ofNat] at hdigits
      rw [hdigits]

/-! ## Signs -/

/-- Digits behind an optional plus sign, and what they stand for. -/
inductive Unsigned : List Char → Nat → Prop
  | digits {cs : List Char} (h : IsDigits cs) : Unsigned cs (Nat.ofDigitChars 10 cs 0)
  | plus {cs : List Char} (h : IsDigits cs) : Unsigned ('+' :: cs) (Nat.ofDigitChars 10 cs 0)

/-- Digits behind an optional sign, and what they stand for. -/
inductive Signed : List Char → Int → Prop
  | unsigned {cs : List Char} {n : Nat} (h : Unsigned cs n) : Signed cs n
  | minus {cs : List Char} (h : IsDigits cs) :
      Signed ('-' :: cs) (-(Nat.ofDigitChars 10 cs 0 : Int))

/-- A numeral that may not be negative has no minus sign anywhere. -/
theorem Unsigned.minus_not_mem {n : Nat} (h : Unsigned cs n) : '-' ∉ cs := by
  cases h with
  | digits h => exact h.not_mem (by decide)
  | plus h => simp [h.not_mem (show '-'.isDigit = false by decide)]

/-- An unsigned number is read from what spells it. -/
theorem unsigned?_eq_some_iff {n : Nat} : unsigned? cs = some n ↔ Unsigned cs n := by
  constructor
  · intro h
    unfold unsigned? at h
    split at h
    · obtain ⟨hdigits, rfl⟩ := natural?_eq_some_iff.mp h
      exact .plus hdigits
    · obtain ⟨hdigits, rfl⟩ := natural?_eq_some_iff.mp h
      exact .digits hdigits
  · intro h
    cases h with
    | digits h =>
      unfold unsigned?
      split
      · exact absurd rfl (h.head_ne (by decide))
      · exact natural?_eq_some_iff.mpr ⟨h, rfl⟩
    | plus h => exact natural?_eq_some_iff.mpr ⟨h, rfl⟩

/-- A signed number is read from what spells it. -/
theorem signed?_eq_some_iff {n : Int} : signed? cs = some n ↔ Signed cs n := by
  constructor
  · intro h
    unfold signed? at h
    split at h
    all_goals
      obtain ⟨m, hm, rfl⟩ := Option.map_eq_some_iff.mp h
      obtain ⟨k, hk, hm⟩ := Option.bind_eq_some_iff.mp hm
      cases hm
      obtain ⟨hdigits, rfl⟩ := natural?_eq_some_iff.mp hk
    · exact .minus hdigits
    · exact .unsigned (.plus hdigits)
    · exact .unsigned (.digits hdigits)
  · intro h
    cases h with
    | unsigned h =>
      cases h with
      | digits h =>
        unfold signed?
        split
        · exact absurd rfl (h.head_ne (by decide))
        · exact absurd rfl (h.head_ne (by decide))
        · rw [natural?_eq_some_iff.mpr ⟨h, rfl⟩]
          rfl
      | plus h => simp [signed?, natural?_eq_some_iff.mpr ⟨h, rfl⟩]
    | minus h => simp [signed?, natural?_eq_some_iff.mpr ⟨h, rfl⟩]

/-- A signed number of 64 bits is read from what spells it. -/
theorem int64?_eq_some_iff {n : Int64} : int64? cs = some n ↔ Signed cs n.toInt := by
  rw [← signed?_eq_some_iff, int64?, Option.bind_eq_some_iff]
  constructor
  · rintro ⟨m, hm, hfits⟩
    split at hfits
    · rename_i hbounds
      cases hfits
      rwa [Int64.toInt_ofInt_of_le hbounds.1 (Int.lt_add_one_of_le hbounds.2)]
    · cases hfits
  · intro h
    exact ⟨n.toInt, h, by rw [if_pos ⟨n.minValue_le_toInt, n.toInt_le⟩, Int64.ofInt_toInt]⟩

/-- An unsigned number of 32 bits is read from what spells it. -/
theorem uint32?_eq_some_iff {n : UInt32} : uint32? cs = some n ↔ Unsigned cs n.toNat := by
  rw [← unsigned?_eq_some_iff, uint32?, Option.bind_eq_some_iff]
  constructor
  · rintro ⟨m, hm, hfits⟩
    split at hfits
    · rename_i hsize
      cases hfits
      rwa [UInt32.toNat_ofNat_of_lt' hsize]
    · cases hfits
  · intro h
    exact ⟨n.toNat, h, by simp [n.toNat_lt_size]⟩

/-! ## Canonical numerals -/

/-- Whether a numeral has no plus sign, no zero before its other digits and no minus sign before a
zero. -/
def isCanonical : List Char → Bool
  | '+' :: _ => false
  | '0' :: _ :: _ => false
  | '-' :: '0' :: _ => false
  | _ => true

/-- What is written for a natural number spells it. -/
theorem unsigned_ofNat (n : Nat) : Unsigned (ofNat n) n := by
  have h := Unsigned.digits (isDigits_ofNat n)
  rwa [ofNat, Nat.ofDigitChars_ten_toDigits] at h

/-- What is written for an integer spells it. -/
theorem signed_ofInt (n : Int) : Signed (ofInt n) n := by
  unfold ofInt
  split
  · have h := Signed.minus (isDigits_ofNat n.natAbs)
    rw [ofNat, Nat.ofDigitChars_ten_toDigits] at h
    rwa [show (-(n.natAbs : Int)) = n by omega] at h
  · have h := Signed.unsigned (unsigned_ofNat n.natAbs)
    rwa [show (n.natAbs : Int) = n by omega] at h

/-- Behind a minus sign a canonical number does not begin with a zero. -/
theorem isCanonical_minus_iff : isCanonical ('-' :: cs) = true ↔ cs.head? ≠ some '0' := by
  cases cs with
  | nil => simp [isCanonical]
  | cons c rest =>
    by_cases hc : c = '0'
    · simp [hc, isCanonical]
    · simp [hc, isCanonical]

/-- Digits are canonical if they are a single zero or do not begin with one. -/
theorem IsDigits.isCanonical_iff (h : IsDigits cs) :
    isCanonical cs = true ↔ cs = ['0'] ∨ cs.head? ≠ some '0' := by
  cases cs with
  | nil => exact absurd rfl h.1
  | cons c rest =>
    by_cases hc : c = '0'
    · subst hc
      cases rest <;> simp [isCanonical]
    · have hplus : c ≠ '+' := h.head_ne (by decide)
      have hminus : c ≠ '-' := h.head_ne (by decide)
      simp [isCanonical, hc, hplus, hminus]

/-- Digits are written as they are exactly if they are canonical. -/
theorem IsDigits.ofNat_eq_iff (h : IsDigits cs) :
    ofNat (Nat.ofDigitChars 10 cs 0) = cs ↔ isCanonical cs = true := by
  rw [h.isCanonical_iff]
  constructor
  · intro hcs
    rcases Nat.eq_zero_or_pos (Nat.ofDigitChars 10 cs 0) with hvalue | hvalue
    · rw [hvalue] at hcs
      exact .inl hcs.symm
    · have hhead := head?_ofNat_ne_zero hvalue
      rw [hcs] at hhead
      exact .inr hhead
  · rintro (rfl | hzero)
    · rfl
    · exact (ofNat_ofDigitChars h hzero).2

/-- A numeral without a minus sign is written as it is exactly if it is canonical. -/
theorem Unsigned.ofNat_eq_iff {n : Nat} (h : Unsigned cs n) :
    ofNat n = cs ↔ isCanonical cs = true := by
  cases h with
  | digits h => exact h.ofNat_eq_iff
  | @plus cs h =>
    have hhead : ofNat (Nat.ofDigitChars 10 cs 0) ≠ '+' :: cs := fun heq =>
      (heq ▸ isDigits_ofNat _).head_ne (by decide) rfl
    simp [hhead, isCanonical]

/-- A numeral is written as it is exactly if it is canonical. -/
theorem Signed.ofInt_eq_iff {n : Int} (h : Signed cs n) :
    ofInt n = cs ↔ isCanonical cs = true := by
  cases h with
  | @unsigned _ n h =>
    rw [← h.ofNat_eq_iff, ofInt, if_neg (by omega), Int.natAbs_natCast]
  | @minus cs h =>
    rw [isCanonical_minus_iff, ofInt]
    constructor
    · intro hcs
      split at hcs
      · have hhead := head?_ofNat_ne_zero (n := Nat.ofDigitChars 10 cs 0) (by omega)
        rw [Int.natAbs_neg, Int.natAbs_natCast] at hcs
        rwa [(List.cons.inj hcs).2] at hhead
      · exact absurd rfl ((hcs ▸ isDigits_ofNat _).head_ne (by decide))
    · intro hzero
      obtain ⟨hpos, hcs⟩ := ofNat_ofDigitChars h hzero
      rw [if_pos (by omega), Int.natAbs_neg, Int.natAbs_natCast, hcs]

end Pacing.Numeral
