import Pacing.Proofs.JsonRoundTrip
import Pacing.Proofs.ShortestDecimals

/-!
# Doubles that are written

A finite double is written as a number of the grammar, with the digits of its shortest decimal laid
out around the point; an infinity or NaN is written as null.
-/

namespace Pacing.Json

-- Powers are those of the core library, whatever else is in scope.
attribute [local instance (high)] instPowNat instNatPowNat

namespace Number

/-- Digits that are laid out around the point can be read, if no zero comes first. -/
theorem canonical_layOut {digits : List Char} {e : Int} (hne : digits ≠ [])
    (hdigits : ∀ c ∈ digits, c.isDigit = true)
    (hzero : digits.head? ≠ some '0') :
    (layOut digits e).Canonical := by
  have hzeros (n : Nat) : ∀ c ∈ List.replicate n '0', c.isDigit = true := by
    intro c hc
    rw [List.eq_of_mem_replicate hc]
    decide
  have htake (n : Nat) : ∀ c ∈ digits.take n, c.isDigit = true :=
    fun c hc => hdigits c (List.mem_of_mem_take hc)
  have hdrop (n : Nat) : ∀ c ∈ digits.drop n, c.isDigit = true :=
    fun c hc => hdigits c (List.mem_of_mem_drop hc)
  obtain ⟨d, more, rfl⟩ := List.exists_cons_of_ne_nil hne
  unfold layOut
  split
  · split
    · exact ⟨by simp, by simp, by simp, List.forall_mem_append.mpr ⟨hzeros _, hdigits⟩⟩
    · refine ⟨by simp, List.forall_mem_append.mpr ⟨htake _, hzeros _⟩, ?_, ?_⟩
      · intro hhead
        exact absurd (by simpa using hhead) hzero
      · dsimp only
        split
        · exact hzeros 1
        · exact hdrop _
  · exact ⟨by simp, htake 1, by simp, hdrop 1⟩

/-- The digits of a double and their place: those of its shortest decimal. -/
def ofShortest (x : Float) : Number :=
  let digits := Numeral.ofNat (Decimal.shortest x).coefficient
  layOut digits ((Decimal.shortest x).power + digits.length - 1)

/-- A double is written as a number if it is zero or has parts. -/
theorem ofFloat?_cases {x : Float} {n : Number} (h : ofFloat? x = some n) :
    n.negative = decide (x.toBits.toNat / 2 ^ (63 : Nat) = 1) ∧
      ((x == 0) = true ∧ n = { n with integer := ['0'], fraction := ['0'], exponent := none } ∨
        (∃ sign m q, Double.Parts x sign m q) ∧
          n = { ofShortest x with negative := n.negative }) := by
  unfold ofFloat? at h
  split at h
  · rename_i hfinite
    dsimp only at h
    split at h
    · rename_i hx
      cases h
      exact ⟨rfl, .inl ⟨hx, rfl⟩⟩
    · rename_i hx
      cases h
      exact ⟨rfl, .inr ⟨Double.exists_parts hfinite (Bool.eq_false_iff.mpr hx), rfl⟩⟩
  · cases h

/-- A double has no decimal exactly if it is not finite. -/
theorem ofFloat?_eq_none_iff {x : Float} : ofFloat? x = none ↔ x.isFinite = false := by
  unfold ofFloat?
  split
  · rename_i hfinite
    dsimp only
    split <;> simp [hfinite]
  · rename_i hfinite
    simpa using hfinite

/-- A double that is written as a number is written as one that can be read. -/
theorem canonical_of_ofFloat? {x : Float} {n : Number} (h : ofFloat? x = some n) :
    n.Canonical := by
  obtain ⟨-, ⟨-, hn⟩ | ⟨⟨_, _, _, hparts⟩, hn⟩⟩ := ofFloat?_cases h
  · rw [hn]
    exact ⟨by simp, by simp, by simp, by simp⟩
  · have hdigits : (ofShortest x).Canonical :=
      canonical_layOut (Numeral.ofNat_ne_nil _) (List.all_eq_true.mp (Numeral.all_isDigit_ofNat _))
        (Numeral.head?_ofNat_ne_zero (Decimal.shortest_pos hparts))
    rw [hn]
    exact ⟨hdigits.1, hdigits.2, hdigits.3, hdigits.4⟩

end Number

variable {layout : Layout}

/-- The text of a double is cut into its token: its decimal, or null when it is not finite. -/
theorem Cuts.float (x : Float) : Cuts layout (.float x) := by
  unfold Json.float
  cases hx : Number.ofFloat? x with
  | none => exact .null
  | some n => exact .number (Number.canonical_of_ofFloat? hx)

end Pacing.Json
