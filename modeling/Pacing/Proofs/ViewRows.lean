import Pacing.Store.ViewReader
import Pacing.Proofs.CursorOrder
import Pacing.Proofs.Runs

/-!
# The cursors of rows

A row of the table of views is chosen by comparing its cells and is read into a view afterwards.
As long as its timestamp is one of 64 bits, both see the same cursor.
-/

namespace Pacing

namespace Cursor

/-- The comparison of cursors tells which is the earlier. -/
theorem compare_eq_lt {a b : Cursor} : compare a b = .lt ↔ a < b := Int.compare_eq_lt

/-- The comparison of cursors tells which is the later. -/
theorem compare_eq_gt {a b : Cursor} : compare a b = .gt ↔ b < a := Int.compare_eq_gt

/-- To compare the timestamps first and the sequence numbers second is to compare the cursors. -/
theorem compare_ts_then_seq (a b : Cursor) :
    (compare a.ts.toInt b.ts.toInt).then (compare (a.seq.toNat : Int) b.seq.toNat) =
      compare a b := by
  have ha := a.seq.toNat_lt
  have hb := b.seq.toNat_lt
  rcases Int.lt_trichotomy a.ts.toInt b.ts.toInt with hts | hts | hts
  · have hlt : a < b := by
      simp only [lt_iff_position, position]
      omega
    rw [Int.compare_eq_lt.mpr hts, compare_eq_lt.mpr hlt]
    rfl
  · rw [Int.compare_eq_eq.mpr hts, Ordering.then]
    show _ = compare a.position b.position
    rcases h : compare (a.seq.toNat : Int) b.seq.toNat
    · have := Int.compare_eq_lt.mp h
      exact (Int.compare_eq_lt.mpr (by simp only [position]; omega)).symm
    · have := Int.compare_eq_eq.mp h
      exact (Int.compare_eq_eq.mpr (by simp only [position]; omega)).symm
    · have := Int.compare_eq_gt.mp h
      exact (Int.compare_eq_gt.mpr (by simp only [position]; omega)).symm
  · have hgt : b < a := by
      simp only [lt_iff_position, position]
      omega
    rw [Int.compare_eq_gt.mpr hts, compare_eq_gt.mpr hgt]
    rfl

end Cursor

/-- A cursor past one that respects a bound from below respects it too. -/
theorem Bound.Below.of_lt {b : Bound} {c c' : Cursor} (h : b.Below c) (hlt : c < c') :
    b.Below c' := by
  cases b with
  | unbounded => trivial
  | included low => exact le_trans h (le_of_lt hlt)
  | excluded low => exact lt_of_lt_of_le h (le_of_lt hlt)

namespace Store

/-- What a list is read as, item by item, has nothing but what its items are read as. -/
theorem exists_of_mem_mapM {α β ε : Type} {read : α → Except ε β} {items : List α} {out : List β}
    {b : β} (hread : items.mapM read = .ok out) (hb : b ∈ out) : ∃ a ∈ items, read a = .ok b := by
  induction items generalizing out with
  | nil =>
    cases hread
    cases hb
  | cons a rest ih =>
    rw [List.mapM_cons] at hread
    obtain ⟨first, ha, hread⟩ := bind_eq_ok_iff.mp hread
    obtain ⟨others, hrest, hread⟩ := bind_eq_ok_iff.mp hread
    cases hread
    rcases List.mem_cons.mp hb with rfl | hb
    · exact ⟨a, List.mem_cons_self, ha⟩
    · obtain ⟨a', ha', hread'⟩ := ih hrest hb
      exact ⟨a', List.mem_cons_of_mem a ha', hread'⟩

namespace Column

variable {c : Column} {cell : Cell}

/-- A text is read from a cell that holds it, and from no other. -/
theorem text_eq_ok_iff {s : String} : c.text cell = .ok s ↔ cell = .text s := by
  cases cell <;> simp [text]

/-- A sequence number is read from a cell that holds it, and from no other. -/
theorem uint32_eq_ok_iff {n : UInt32} : c.uint32 cell = .ok n ↔ cell = .integer n.toNat := by
  cases cell with
  | integer m =>
    simp only [uint32, integer, Except.bind, Cell.integer.injEq]
    have hn := n.toNat_lt
    constructor
    · intro h
      split at h
      · rename_i hm
        have hsize : m.toNat < UInt32.size := by omega
        simp only [Except.ok.injEq] at h
        rw [← h, UInt32.toNat_ofNat_of_lt' hsize, Int.toNat_of_nonneg hm.1]
      · cases h
    · rintro rfl
      rw [if_pos ⟨Int.natCast_nonneg _, by exact_mod_cast hn⟩, Int.toNat_natCast,
        UInt32.ofNat_toNat]
  | _ => simp [uint32, integer, Except.bind]

/-- A whole number of 64 bits is read as it is. -/
theorem int64_eq_ok_iff {n : Int64} (hword : ∀ m, cell = .integer m → FitsWord m) :
    c.int64 cell = .ok n ↔ cell = .integer n.toInt := by
  cases cell with
  | integer m =>
    have hm := hword m rfl
    simp only [int64, integer, Except.map, Except.ok.injEq, Cell.integer.injEq]
    constructor
    · rintro rfl
      exact (Int64.toInt_ofInt_of_le hm.1 (Int.lt_add_one_of_le hm.2)).symm
    · rintro rfl
      exact Int64.ofInt_toInt n
  | _ => simp [int64, integer, Except.map]

end Column

namespace ViewRow

variable {r : ViewRow} {d : Day} {v : View}

/-- If the timestamp of the row is a whole number, then one of 64 bits. -/
def WordSized (r : ViewRow) : Prop := ∀ n, r.ts = .integer n → FitsWord n

/-- A row is read as the view that has its cells. -/
theorem view_eq_ok_iff (hword : r.WordSized) :
    r.view d = .ok v ↔ r.ts = .integer v.cursor.ts.toInt ∧ r.seq = .integer v.cursor.seq.toNat ∧
      r.campaign = .text v.tag ∧ v.day = d := by
  obtain ⟨⟨ts, seq⟩, tag, day⟩ := v
  rw [← Column.int64_eq_ok_iff (c := ⟨0, "ts_ms"⟩) hword,
    ← Column.uint32_eq_ok_iff (c := ⟨1, "seq"⟩), ← Column.text_eq_ok_iff (c := ⟨2, "campaign"⟩)]
  unfold view
  cases Column.int64 ⟨0, "ts_ms"⟩ r.ts <;> cases Column.uint32 ⟨1, "seq"⟩ r.seq <;>
    cases Column.text ⟨2, "campaign"⟩ r.campaign <;>
    simp [bind, Except.bind, pure, Except.pure, and_assoc, eq_comm]

/-- The row of a view has a timestamp of 64 bits. -/
theorem wordSized_ofView (v : View) : (ofView v).WordSized := by
  rintro n hn
  cases hn
  exact ⟨v.cursor.ts.minValue_le_toInt, v.cursor.ts.toInt_le⟩

/-- The row of a view is read as that view. -/
theorem view_ofView (v : View) : (ofView v).view v.day = .ok v :=
  (view_eq_ok_iff (wordSized_ofView v)).mpr ⟨rfl, rfl, rfl, rfl⟩

/-- A row is compared with a cursor as the cursor of its view is. -/
theorem compareCursor_eq (hword : r.WordSized) (hview : r.view d = .ok v) (c : Cursor) :
    r.compareCursor c = compare v.cursor c := by
  obtain ⟨hts, hseq, -, -⟩ := (view_eq_ok_iff hword).mp hview
  rw [compareCursor, hts, hseq, Cell.compare_integer, Cell.compare_integer,
    Cursor.compare_ts_then_seq]

/-- A row is in a range from below exactly when the cursor of its view is. -/
theorem respectsLow_iff (hword : r.WordSized) (hview : r.view d = .ok v) (b : Bound) :
    r.respectsLow b = true ↔ b.Below v.cursor := by
  cases b with
  | unbounded => simp [respectsLow, Bound.Below]
  | included c =>
    rw [respectsLow, compareCursor_eq hword hview, Bound.Below, ← not_lt,
      ← Cursor.compare_eq_lt]
    cases compare v.cursor c <;> simp
  | excluded c =>
    rw [respectsLow, compareCursor_eq hword hview, Bound.Below, ← Cursor.compare_eq_gt]
    cases compare v.cursor c <;> simp

/-- A row is in a range from above exactly when the cursor of its view is. -/
theorem respectsHigh_iff (hword : r.WordSized) (hview : r.view d = .ok v) (b : Bound) :
    r.respectsHigh b = true ↔ b.Above v.cursor := by
  cases b with
  | unbounded => simp [respectsHigh, Bound.Above]
  | included c =>
    rw [respectsHigh, compareCursor_eq hword hview, Bound.Above, ← not_lt,
      ← Cursor.compare_eq_gt]
    cases compare v.cursor c <;> simp
  | excluded c =>
    rw [respectsHigh, compareCursor_eq hword hview, Bound.Above, ← Cursor.compare_eq_lt]
    cases compare v.cursor c <;> simp

end ViewRow

end Store

end Pacing
