import Pacing.Cursor.Text
import Pacing.Window.State

/-!
# Snapshots of the window

A snapshot lists the counters and watermarks of a window together with its length, so that a
restart can go on from them. Counters that are zero are left out, and a snapshot that contradicts
itself is refused.
-/

namespace Pacing

/-- The saved form of a window. -/
structure Snapshot where
  /-- The length of the window in seconds. -/
  seconds : Int64
  /-- The low watermark. -/
  low : Option Cursor := none
  /-- The high watermark. -/
  high : Option Cursor := none
  /-- The totals of buckets. -/
  totals : List (Bucket × UInt64) := []
  /-- The holdings of boosts. -/
  holdings : List (String × Holding) := []
  /-- When the snapshot was taken, in seconds since 1970-01-01. -/
  savedAt : Int64 := 0
deriving DecidableEq, Repr

namespace Snapshot

/-- How a snapshot can contradict itself. -/
inductive Inconsistency where
  /-- The low watermark lies past the high one. -/
  | lowPastHigh (low high : Cursor)
  /-- One watermark is set and the other is not. -/
  | loneWatermark
  /-- A segment of a boost ends before it begins. -/
  | invertedSegment (boost : String)
deriving DecidableEq, Repr

/-- The wording of a contradiction. -/
def Inconsistency.message : Inconsistency → String
  | lowPastHigh low high =>
    s!"snapshot is inconsistent: min_cursor {low.render} is after max_cursor {high.render}"
  | loneWatermark => "snapshot is inconsistent: only one cursor is set"
  | invertedSegment boost =>
    s!"snapshot is inconsistent: boost {boost} has a segment ending before it starts"

/-- The snapshot of a state. -/
def capture (state : WindowState) (seconds savedAt : Int64) : Snapshot :=
  { seconds, savedAt
    low := state.low
    high := state.high
    totals := state.totals.toList.filter fun (_, n) => 0 < n
    holdings := state.holdings.toList }

/-- The watermarks of a snapshot must both be absent or in order. -/
def checkWatermarks (s : Snapshot) : Except Inconsistency Unit :=
  match s.low, s.high with
  | some low, some high => if high < low then .error (.lowPastHigh low high) else .ok ()
  | none, none => .ok ()
  | _, _ => .error .loneWatermark

/-- Adds the holding of a boost. Segments without views are dropped, and a boost left without
segments is not added. -/
def addHolding (holdings : Std.ExtTreeMap String Holding) :
    String × Holding → Except Inconsistency (Std.ExtTreeMap String Holding)
  | (id, h) =>
    let segments := h.segments.filter (0 < ·.views)
    if segments.any fun s => s.last < s.first then .error (.invertedSegment id)
    else if segments.isEmpty then .ok holdings
    else .ok (holdings.insert id { h with segments })

/-- The state that a snapshot describes; of two entries for one bucket or boost the later
counts. -/
def toState (s : Snapshot) : Except Inconsistency WindowState := do
  s.checkWatermarks
  let holdings ← s.holdings.foldlM addHolding ∅
  return {
    totals := s.totals.foldl (fun totals (b, n) => totals.insert b n) ∅
    holdings
    low := s.low
    high := s.high }

end Snapshot

end Pacing
