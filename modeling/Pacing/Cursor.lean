/-!
# Cursors: positions in a log of views

A view is known by the millisecond it was recorded at and a sequence number that breaks ties.
Cursors are ordered by the millisecond first and the sequence second. `Cursor.position` places
them on one integer line in that order, so that comparisons are comparisons of integers.
-/

namespace Pacing

/-- A position in the log: a UTC timestamp in milliseconds and a sequence number within it. -/
structure Cursor where
  /-- Milliseconds since 1970-01-01, UTC. -/
  ts : Int64
  /-- Tie-breaker among views of one millisecond; views carry neither 0 nor the greatest. -/
  seq : UInt32
deriving DecidableEq, Repr, Inhabited

namespace Cursor

/-- The place of a cursor on the integer line: the sequence number is the low 32 bits. -/
def position (c : Cursor) : Int := c.ts.toInt * 4294967296 + c.seq.toNat

instance : LT Cursor := ⟨fun a b => a.position < b.position⟩
instance : LE Cursor := ⟨fun a b => a.position ≤ b.position⟩
instance : DecidableLT Cursor := fun a b => inferInstanceAs (Decidable (a.position < b.position))
instance : DecidableLE Cursor := fun a b => inferInstanceAs (Decidable (a.position ≤ b.position))
instance : Ord Cursor := ⟨compareOn position⟩

/-- A cursor is less than another when its place on the line is. -/
theorem lt_iff_position {a b : Cursor} : a < b ↔ a.position < b.position := Iff.rfl

/-- A cursor is at most another when its place on the line is. -/
theorem le_iff_position {a b : Cursor} : a ≤ b ↔ a.position ≤ b.position := Iff.rfl

/-- No two cursors share a place on the line. -/
theorem position_inj {a b : Cursor} : a.position = b.position ↔ a = b := by
  constructor
  · intro h
    have ha := a.seq.toNat_lt
    have hb := b.seq.toNat_lt
    simp only [position] at h
    have hseq : a.seq.toNat = b.seq.toNat := by omega
    have hts : a.ts.toInt = b.ts.toInt := by omega
    cases a
    cases b
    simp only [mk.injEq]
    exact ⟨Int64.toInt_inj.mp hts, UInt32.toNat_inj.mp hseq⟩
  · rintro rfl
    rfl

instance : Std.TransOrd Cursor := inferInstanceAs (Std.TransCmp (compareOn position))

instance : Std.LawfulEqOrd Cursor where
  eq_of_compare h := position_inj.mp (Std.LawfulEqOrd.eq_of_compare (α := Int) h)

/-- The order is by timestamp, and by sequence number within one timestamp. -/
theorem lt_iff {a b : Cursor} : a < b ↔ a.ts < b.ts ∨ a.ts = b.ts ∧ a.seq < b.seq := by
  have ha := a.seq.toNat_lt
  have hb := b.seq.toNat_lt
  rw [lt_iff_position, Int64.lt_iff_toInt_lt, UInt32.lt_iff_toNat_lt, ← Int64.toInt_inj]
  simp only [position]
  omega

/-- A cursor that is at most another is less or is the same. -/
theorem le_iff_lt_or_eq {a b : Cursor} : a ≤ b ↔ a < b ∨ a = b := by
  rw [le_iff_position, lt_iff_position, ← position_inj]
  omega

/-- The place before every view recorded at `ts`. -/
def floor (ts : Int64) : Cursor := ⟨ts, 0⟩

/-- The place after every view recorded at `ts`. -/
def ceiling (ts : Int64) : Cursor := ⟨ts, 4294967295⟩

/-- Whether a cursor is a `floor` or a `ceiling` and so cannot belong to a view. -/
def isBoundary (c : Cursor) : Bool := c.seq == 0 || c.seq == 4294967295

/-- A floor's place is its timestamp's first. -/
theorem position_floor (ts : Int64) : (floor ts).position = ts.toInt * 4294967296 := by
  simp [position, floor]

/-- A ceiling's place is its timestamp's last. -/
theorem position_ceiling (ts : Int64) :
    (ceiling ts).position = ts.toInt * 4294967296 + 4294967295 := by
  simp [position, ceiling]

/-- A cursor lies at or above a floor exactly when its timestamp does. -/
theorem floor_le_iff {ts : Int64} {c : Cursor} : floor ts ≤ c ↔ ts ≤ c.ts := by
  have := c.seq.toNat_lt
  rw [le_iff_position, position_floor, Int64.le_iff_toInt_le]
  simp only [position]
  omega

/-- A cursor lies at or below a ceiling exactly when its timestamp does. -/
theorem le_ceiling_iff {ts : Int64} {c : Cursor} : c ≤ ceiling ts ↔ c.ts ≤ ts := by
  have := c.seq.toNat_lt
  rw [le_iff_position, position_ceiling, Int64.le_iff_toInt_le]
  simp only [position]
  omega

end Cursor

end Pacing
