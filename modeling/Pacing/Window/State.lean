import Pacing.Window.Segment
import Std.Data.ExtTreeMap

/-!
# The state of the window

Two watermarks bound the window: the views with a cursor above the low one and not above the high
one are counted. The counters are a total for each bucket and a holding for each boost.
-/

namespace Pacing

/-- The counters and watermarks of the window. -/
structure WindowState where
  /-- The number of counted views of each bucket; a bucket that is absent has none. -/
  totals : Std.ExtTreeMap Bucket UInt64 := ∅
  /-- The counted views of each boost that has any. -/
  holdings : Std.ExtTreeMap String Holding := ∅
  /-- The low watermark: up to here views have been taken back. -/
  low : Option Cursor := none
  /-- The high watermark: up to here views have been counted. -/
  high : Option Cursor := none
deriving DecidableEq, Inhabited

namespace WindowState

/-- The number of counted views of a bucket. -/
def total (s : WindowState) (b : Bucket) : UInt64 := s.totals.getD b 0

/-- The number of counted views of a boost, which a program keeps 64 bits of. -/
def viewsOf (s : WindowState) (id : String) : Nat := (s.holdings[id]?.map Holding.views).getD 0

/-- Whether the window has begun. -/
def isInitialized (s : WindowState) : Bool := s.high.isSome

/-- The segment of a boost in which a cursor was counted. -/
def segmentAt? (s : WindowState) (id : String) (c : Cursor) : Option Segment :=
  s.holdings[id]?.bind (·.segmentAt? c)

/-- Adds views to the totals of buckets. A total keeps 64 bits and wraps. -/
def addTotals (s : WindowState) (gained : List (Bucket × Nat)) : WindowState :=
  { s with totals := gained.foldl (fun totals (b, n) =>
      totals.insert b (totals.getD b 0 + UInt64.ofNat n)) s.totals }

/-- Takes views from the totals of buckets. No total falls below zero. -/
def subtractTotals (s : WindowState) (lost : List (Bucket × Nat)) : WindowState :=
  { s with totals := lost.foldl (fun totals (b, n) =>
      totals.insert b (UInt64.ofNat ((totals.getD b 0).toNat - n))) s.totals }

/-- Seals the holdings of boosts that have any. -/
def sealAll (s : WindowState) (ids : List String) : WindowState :=
  { s with
    holdings := ids.foldl (fun holdings id => holdings.modify id Holding.sealOff) s.holdings }

/-- Adds a run of views to the holdings of boosts. -/
def appendAll (s : WindowState) (runs : List (String × Segment)) : WindowState :=
  { s with holdings := runs.foldl (fun holdings (id, run) =>
      holdings.alter id fun h => some ((h.getD {}).append run)) s.holdings }

/-- Takes views back from segments of boosts. A boost left without segments goes away. -/
def takeBackAll (s : WindowState) (removed : List (SegmentStart × Nat)) : WindowState :=
  { s with holdings := removed.foldl (fun holdings (start, n) =>
      holdings.alter start.boost (·.bind (·.takeBack? start.first n))) s.holdings }

end WindowState

end Pacing
