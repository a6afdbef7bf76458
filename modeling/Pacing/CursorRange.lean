import Pacing.Cursor

/-!
# Ranges of cursors

A range has a bound on each side, and each bound is absent, included or excluded. A range is
empty by its bounds when they alone rule out every cursor.
-/

namespace Pacing

/-- One side of a range. -/
inductive Bound where
  /-- No limit on this side. -/
  | unbounded
  /-- The limit itself belongs to the range. -/
  | included (cursor : Cursor)
  /-- The limit itself lies outside the range. -/
  | excluded (cursor : Cursor)
deriving DecidableEq, Repr

namespace Bound

/-- The limit that a bound names. -/
def cursor? : Bound → Option Cursor
  | unbounded => none
  | included c => some c
  | excluded c => some c

/-- Whether a cursor respects a bound from below. -/
def Below : Bound → Cursor → Prop
  | unbounded, _ => True
  | included low, c => low ≤ c
  | excluded low, c => low < c

/-- Whether a cursor respects a bound from above. -/
def Above : Bound → Cursor → Prop
  | unbounded, _ => True
  | included high, c => c ≤ high
  | excluded high, c => c < high

instance (b : Bound) (c : Cursor) : Decidable (b.Below c) := by
  cases b <;> unfold Below <;> infer_instance

instance (b : Bound) (c : Cursor) : Decidable (b.Above c) := by
  cases b <;> unfold Above <;> infer_instance

end Bound

/-- The cursors between two bounds. -/
structure CursorRange where
  /-- The lower side. -/
  low : Bound := .unbounded
  /-- The upper side. -/
  high : Bound := .unbounded
deriving DecidableEq, Repr

namespace CursorRange

/-- All cursors past `c`. -/
def after (c : Cursor) : CursorRange := ⟨.excluded c, .unbounded⟩

/-- A cursor belongs to a range when it respects both bounds. -/
instance : Membership Cursor CursorRange := ⟨fun r c => r.low.Below c ∧ r.high.Above c⟩

/-- A range has the cursors that respect its bound on each side. -/
theorem mem_iff {r : CursorRange} {c : Cursor} : c ∈ r ↔ r.low.Below c ∧ r.high.Above c := Iff.rfl

instance (c : Cursor) (r : CursorRange) : Decidable (c ∈ r) :=
  inferInstanceAs (Decidable (r.low.Below c ∧ r.high.Above c))

/-- Whether the bounds cross, or meet without both being included. -/
def isEmpty (r : CursorRange) : Bool :=
  match r.low, r.high with
  | .included low, .included high => high < low
  | .included low, .excluded high => high ≤ low
  | .excluded low, .included high => high ≤ low
  | .excluded low, .excluded high => high ≤ low
  | _, _ => false

/-- A range that is empty by its bounds has no members. -/
theorem not_mem_of_isEmpty {r : CursorRange} (h : r.isEmpty = true) (c : Cursor) : c ∉ r := by
  obtain ⟨low, high⟩ := r
  rintro ⟨hlow, hhigh⟩
  cases low <;> cases high <;>
    simp only [isEmpty, Bool.false_eq_true, decide_eq_true_eq, Cursor.lt_iff_position,
      Cursor.le_iff_position, Bound.Below, Bound.Above] at h hlow hhigh <;>
    omega

end CursorRange

end Pacing
