import Mathlib.Data.Int.Order.Basic
import Mathlib.Order.Basic
import Pacing.Cursor

/-!
# Cursors in a chain

Cursors stand on one integer line, so their order is linear, as that of the integers is.
-/

namespace Pacing.Cursor

/-- No two cursors share a place on the line. -/
theorem position_injective : Function.Injective position := fun _ _ => position_inj.mp

/-- Cursors are ordered as their places on the line are. The comparisons are the ones that cursors
are declared with, so that code and theorems compare them in one way. -/
instance (priority := low) : LinearOrder Cursor :=
  letI : Max Cursor := maxOfLe
  letI : Min Cursor := minOfLe
  position_injective.linearOrder position .rfl .rfl (fun _ _ => apply_ite position _ _ _)
    (fun _ _ => apply_ite position _ _ _) fun _ _ => rfl

variable {a b c : Cursor}

/-- Timestamps rise with cursors. -/
theorem ts_le_of_le (h : a ≤ b) : a.ts ≤ b.ts :=
  floor_le_iff.mp (le_trans (floor_le_iff.mpr (Int64.le_refl _)) h)

/-- The first of rising cursors is the least. -/
theorem head_le_of_rising {cursors : List Cursor} (hrising : cursors.Pairwise (· < ·))
    (hfirst : cursors.head? = some a) (hc : c ∈ cursors) : a ≤ c := by
  cases cursors with
  | nil => cases hc
  | cons first rest =>
    simp only [List.head?_cons, Option.some.injEq] at hfirst
    subst hfirst
    rcases List.mem_cons.mp hc with rfl | hc
    · exact le_refl _
    · exact le_of_lt ((List.pairwise_cons.mp hrising).1 c hc)

/-- The last of rising cursors is the greatest. -/
theorem le_last_of_rising {cursors : List Cursor} (hrising : cursors.Pairwise (· < ·))
    (hlast : cursors.getLast? = some b) (hc : c ∈ cursors) : c ≤ b := by
  obtain ⟨front, rfl⟩ := List.getLast?_eq_some_iff.mp hlast
  rcases List.mem_append.mp hc with hc | hc
  · exact le_of_lt ((List.pairwise_append.mp hrising).2.2 c hc b (List.mem_singleton_self b))
  · rw [List.mem_singleton.mp hc]

end Pacing.Cursor
