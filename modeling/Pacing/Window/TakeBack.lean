import Pacing.CampaignTag
import Pacing.Window.State
import Pacing.Window.Tally

/-!
# Taking back: removing expired views

A take-back stages what a scan of expired views will remove from the window. Only a view whose
cursor lies in a segment of its boost was counted, and it is taken back from that segment and from
the buckets of that segment's profile.
-/

namespace Pacing

/-- The staged effect of a scan of expired views. -/
structure TakeBack where
  /-- What has been read. -/
  tally : Tally := {}
  /-- The views lost by each bucket. -/
  lost : Std.ExtTreeMap Bucket Nat := ∅
  /-- The views to take from each segment. -/
  removed : Std.ExtTreeMap SegmentStart Nat := ∅
deriving DecidableEq, Inhabited

namespace TakeBack

/-- The range of cursors that a take-back reads: past the low watermark, up to the start of the
window, but never past what has been counted. -/
def range (low high : Cursor) (start : Int64) : CursorRange :=
  ⟨.excluded low, if Cursor.floor start ≤ high then .excluded (.floor start) else .included high⟩

/-- The segment in which a view was counted. -/
def countedIn? (state : WindowState) (v : View) : Option (String × Segment) :=
  (CampaignTag.resolve? v.tag).bind fun id =>
    (state.segmentAt? id v.cursor).map fun segment => (id, segment)

/-- Stages one view. -/
def note (state : WindowState) (s : TakeBack) (v : View) : Except ScanError TakeBack := do
  let tally ← s.tally.observe .prune v.cursor
  match countedIn? state v with
  | none => return { s with tally := tally.skip }
  | some (id, segment) =>
    return {
      tally := tally.count
      lost := segment.profile.buckets.foldl (fun l b => l.alter b fun n => some (n.getD 0 + 1))
        s.lost
      removed := s.removed.alter ⟨id, segment.first⟩ fun n => some (n.getD 0 + 1) }

end TakeBack

/-- Puts a complete take-back into the window. -/
def WindowState.commitTakeBack (state : WindowState) (s : TakeBack) : WindowState :=
  let state := state.subtractTotals s.lost.toList
  let state := state.takeBackAll s.removed.toList
  { state with low := s.tally.last <|> state.low }

end Pacing
