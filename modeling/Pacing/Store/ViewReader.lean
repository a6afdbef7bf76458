import Pacing.Source
import Pacing.Store.ViewTable

/-!
# Reading the table of views

A query goes through the days that its range touches, one after the other, and reads each in
pages: so many rows at a time, and each page past the last view of the page before. A page with a
row that cannot be read is lost as a whole and ends the scan.

Memory for all rows of a page is asked for before the first of them is read, however few there are.
It is taken to be there, but no program can ask for more bytes than a signed word counts.

A side without a bound reaches to the first or last day of the table. When that is no date, no day
is touched.
-/

namespace Pacing.Store

namespace ViewRow

/-- Whether the cursor of the row respects a bound from below. -/
def respectsLow (r : ViewRow) : Bound → Bool
  | .unbounded => true
  | .included c => (r.compareCursor c).isGE
  | .excluded c => (r.compareCursor c).isGT

/-- Whether the cursor of the row respects a bound from above. -/
def respectsHigh (r : ViewRow) : Bound → Bool
  | .unbounded => true
  | .included c => (r.compareCursor c).isLE
  | .excluded c => (r.compareCursor c).isLT

end ViewRow

/-- The two scans one after the other; a scan that broke off is not gone on with. -/
def followedBy (s t : Scan) : Scan :=
  if s.failure.isSome then s else ⟨s.views ++ t.views, t.failure⟩

/-- The bytes that a view takes up in memory. -/
def viewBytes : Nat := 56

/-- The most bytes that memory can be asked for at once. -/
def maxBytes : Nat := 9223372036854775807

/-- Whether memory can be asked for that holds a page of so many rows. -/
def PageFits (size : UInt64) : Prop := size.toNat * viewBytes ≤ maxBytes

instance (size : UInt64) : Decidable (PageFits size) := by unfold PageFits; infer_instance

namespace ViewTable

variable (t : ViewTable)

/-- The keys of the first and the last day; none in an empty table. -/
def keyLimits : Except Error (Option Int × Option Int) := do
  let keys := t.rows.map (·.dayKey)
  let first ← Column.integer? ⟨0, "MIN(year * 10000 + month * 100 + day)"⟩ (.least keys)
  let last ← Column.integer? ⟨1, "MAX(year * 10000 + month * 100 + day)"⟩ (.greatest keys)
  return (first, last)

/-- The day that a range reaches to on one side: that of the bound, or without one that of the
key. -/
def limitDay? (bound : Bound) (key? : Option Int) : Option Day :=
  match bound.cursor? with
  | some c => some (Day.ofTimestamp c.ts)
  | none => key?.bind Day.ofKey?

/-- The days that a range touches. -/
def daysOf (range : CursorRange) : Except Error (List Day) :=
  t.keyLimits.map fun (first, last) =>
    match limitDay? range.low first, limitDay? range.high last with
    | some a, some b => Day.between a b
    | _, _ => []

/-- Reads the first rows of a day that lie between two bounds. -/
def page (d : Day) (low high : Bound) (size : UInt64) : Except SourceError (List View) :=
  if PageFits size then
    let rows := t.rows.filter fun r => r.IsFiledUnder d ∧ r.respectsLow low ∧ r.respectsHigh high
    Except.mapError .store ((rows.take size.toNat).mapM (·.view d))
  else .error .capacityOverflow

/-- Reads at most `pages` pages of a day, going on past the last view of each full page. -/
def readPages (d : Day) (high : Bound) (size : UInt64) : Nat → Bound → Scan
  | 0, _ => ⟨[], none⟩
  | pages + 1, low =>
    match t.page d low high size with
    | .error e => ⟨[], some e⟩
    | .ok views =>
      match views.getLast? with
      | some last =>
        if views.length < size.toNat then ⟨views, none⟩
        else followedBy ⟨views, none⟩ (readPages d high size pages (.excluded last.cursor))
      | none => ⟨[], none⟩

/-- Reads the rows of a day in a range. Each full page leaves fewer rows to read, so there cannot
be more pages than rows and one more. -/
def readDay (range : CursorRange) (size : UInt64) (d : Day) : Scan :=
  t.readPages d range.high size (t.rows.length + 1) range.low

/-- Reads several days. -/
def readDays (range : CursorRange) (size : UInt64) (days : List Day) : Scan :=
  days.foldl (fun scan d => followedBy scan (t.readDay range size d)) ⟨[], none⟩

end ViewTable

/-- A reader of a table of views. -/
structure ViewReader where
  /-- The table, if it exists. -/
  table : Option ViewTable := none
  /-- The number of rows on a page. -/
  pageSize : UInt64 := 2500
  pageSize_pos : 0 < pageSize := by decide

namespace ViewReader

/-- The reader with pages of a given size, but of one row at least. -/
def withPageSize (r : ViewReader) (size : UInt64) : ViewReader :=
  { r with
    pageSize := max size 1
    pageSize_pos := by
      have hone : (0 : UInt64) < 1 := by decide
      change 0 < if size ≤ 1 then 1 else size
      split
      · exact hone
      · rename_i hmore
        exact UInt64.lt_trans hone (UInt64.not_le.mp hmore) }

/-- Asks for the views of a range. A range that is empty by its bounds asks for nothing. -/
def query (r : ViewReader) (range : CursorRange) : Except SourceError Scan :=
  if range.isEmpty then .ok ⟨[], none⟩
  else
    match r.table with
    | none => .error (.store (.noSuchTable "views"))
    | some t =>
      match t.daysOf range with
      | .error e => .error (.store e)
      | .ok days => .ok (t.readDays range r.pageSize days)

instance : ViewSource ViewReader where
  query r range := (r.query range, r)

end ViewReader

end Pacing.Store
