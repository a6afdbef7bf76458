import Pacing.Store.Affinity
import Pacing.Store.Arithmetic
import Pacing.Store.Column
import Pacing.View

/-!
# The table of views

A row of the table is a view with the day that it is filed under. Day and cursor together are the
key: no two rows share it, and the rows are kept in its order.
-/

namespace Pacing.Store

/-- A row of the table of views. -/
structure ViewRow where
  /-- The year of the day. -/
  year : Cell
  /-- The month of the day. -/
  month : Cell
  /-- The day of the month. -/
  day : Cell
  /-- The timestamp of the cursor. -/
  ts : Cell
  /-- The sequence number of the cursor. -/
  seq : Cell
  /-- The campaign tag. -/
  campaign : Cell
deriving DecidableEq, Repr, Inhabited

namespace ViewRow

/-- The row of a view. -/
def ofView (v : View) : ViewRow :=
  { year := .integer v.day.year
    month := .integer v.day.month
    day := .integer v.day.day
    ts := .integer v.cursor.ts.toInt
    seq := .integer v.cursor.seq.toNat
    campaign := .text v.tag }

/-- Rows are ordered by their keys. -/
instance : Ord ViewRow :=
  ⟨compareLex (compareOn year) <| compareLex (compareOn month) <| compareLex (compareOn day) <|
    compareLex (compareOn ts) (compareOn seq)⟩

instance : Std.TransOrd ViewRow :=
  inferInstanceAs <| Std.TransCmp <|
    compareLex (compareOn year) <| compareLex (compareOn month) <| compareLex (compareOn day) <|
      compareLex (compareOn ts) (compareOn seq)

/-- Whether a row comes before another. -/
def Before (a b : ViewRow) : Prop := compare a b = .lt

/-- The row as its columns store it. -/
def stored (r : ViewRow) : ViewRow :=
  { year := Affinity.integer.store r.year
    month := Affinity.integer.store r.month
    day := Affinity.integer.store r.day
    ts := Affinity.integer.store r.ts
    seq := Affinity.integer.store r.seq
    campaign := Affinity.text.store r.campaign }

/-- The names of the key's columns, with the table's. -/
def keyColumns : List String :=
  ["views.year", "views.month", "views.day", "views.ts_ms", "views.seq"]

/-- The cells of the row with the names of their columns, with the table's. -/
def named (r : ViewRow) : List (String × Cell) :=
  keyColumns.zip [r.year, r.month, r.day, r.ts, r.seq] ++ [("views.campaign", r.campaign)]

/-- The digits of the day's year, month and day as one number. -/
def dayKey (r : ViewRow) : Cell :=
  ((r.year.mul (.integer 10000)).add (r.month.mul (.integer 100))).add r.day

/-- Whether the row is filed under a day. -/
def IsFiledUnder (r : ViewRow) (d : Day) : Prop :=
  r.year = .integer d.year ∧ r.month = .integer d.month ∧ r.day = .integer d.day

instance (r : ViewRow) (d : Day) : Decidable (r.IsFiledUnder d) := by
  unfold IsFiledUnder
  infer_instance

/-- How the cursor of the row compares with another. -/
def compareCursor (r : ViewRow) (c : Cursor) : Ordering :=
  (compare r.ts (.integer c.ts.toInt)).then (compare r.seq (.integer c.seq.toNat))

/-- Reads the view of the row as one of the given day. -/
def view (r : ViewRow) (d : Day) : Except Error View := do
  let ts ← Column.int64 ⟨0, "ts_ms"⟩ r.ts
  let seq ← Column.uint32 ⟨1, "seq"⟩ r.seq
  let tag ← Column.text ⟨2, "campaign"⟩ r.campaign
  return ⟨⟨ts, seq⟩, tag, d⟩

end ViewRow

/-- The table of views. -/
structure ViewTable where
  /-- The rows in the order of their keys. -/
  rows : List ViewRow := []
  /-- Every row comes before all later ones. -/
  ordered : rows.Pairwise ViewRow.Before := by simp

namespace ViewTable

/-- Puts a row in its place; none when its key is taken. -/
def place? (r : ViewRow) : List ViewRow → Option (List ViewRow)
  | [] => some [r]
  | s :: rest =>
    match compare r s with
    | .lt => some (r :: s :: rest)
    | .eq => none
    | .gt => (place? r rest).map (s :: ·)

/-- Placing a row adds that row and nothing else. -/
theorem mem_place? {r s : ViewRow} {rows rows' : List ViewRow} (h : place? r rows = some rows') :
    s ∈ rows' ↔ s = r ∨ s ∈ rows := by
  induction rows generalizing rows' with
  | nil =>
    simp only [place?, Option.some.injEq] at h
    simp [← h]
  | cons t rest ih =>
    simp only [place?] at h
    split at h
    · simp only [Option.some.injEq] at h
      simp [← h]
    · contradiction
    · obtain ⟨rest', hrest, rfl⟩ := Option.map_eq_some_iff.mp h
      simp only [List.mem_cons, ih hrest]
      exact or_left_comm

/-- Placing a row keeps the rows in the order of their keys. -/
theorem pairwise_place? {r : ViewRow} {rows rows' : List ViewRow}
    (hrows : rows.Pairwise ViewRow.Before) (h : place? r rows = some rows') :
    rows'.Pairwise ViewRow.Before := by
  induction rows generalizing rows' with
  | nil =>
    simp only [place?, Option.some.injEq] at h
    simp [← h]
  | cons s rest ih =>
    obtain ⟨hs, hrest⟩ := List.pairwise_cons.mp hrows
    simp only [place?] at h
    split at h
    · rename_i hr
      simp only [Option.some.injEq] at h
      rw [← h]
      refine List.pairwise_cons.mpr ⟨fun t ht => ?_, hrows⟩
      rcases List.mem_cons.mp ht with rfl | ht
      · exact hr
      · exact Std.TransCmp.lt_trans hr (hs t ht)
    · contradiction
    · rename_i hr
      obtain ⟨rest', hrest', rfl⟩ := Option.map_eq_some_iff.mp h
      refine List.pairwise_cons.mpr ⟨fun t ht => ?_, ih hrest hrest'⟩
      rcases (mem_place? hrest').mp ht with rfl | ht
      · exact Std.OrientedCmp.lt_of_gt hr
      · exact hs t ht

/-- Adds a row. -/
def insert (t : ViewTable) (r : ViewRow) : Except Error ViewTable :=
  match h : place? r t.rows with
  | some rows => .ok ⟨rows, pairwise_place? t.ordered h⟩
  | none => .error (.unique ViewRow.keyColumns)

/-- Adds a row of any cells, as its columns store them. -/
def put (t : ViewTable) (r : ViewRow) : Except Error ViewTable :=
  match missing? r.stored.named with
  | some e => .error e
  | none => t.insert r.stored

/-- The greatest sequence number of a timestamp, among the rows of a day; none without a row. -/
def lastSequence (t : ViewTable) (d : Day) (ts : Int64) : Except Error (Option Int) :=
  let rows := t.rows.filter fun r => r.IsFiledUnder d ∧ compare r.ts (.integer ts.toInt) = .eq
  Column.integer? ⟨0, "MAX(seq)"⟩ (.greatest (rows.map (·.seq)))

end ViewTable

end Pacing.Store
