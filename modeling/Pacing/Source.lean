import Pacing.Cursor.Text
import Pacing.CursorRange
import Pacing.Store.Error
import Pacing.View

/-!
# Sources of views

A source answers a query for a range of cursors with a scan: the views in order and, where the
scan broke off, the reason. Whoever reads a scan that broke off must treat all of it as
unconfirmed.
-/

namespace Pacing

/-- A failed access to a log of views. -/
inductive SourceError where
  /-- The table of views could not be read or written. -/
  | store (cause : Store.Error)
  /-- The log broke off. -/
  | brokenOff
  /-- A view was to be written with a sequence number that only boundaries have. -/
  | reservedSequence (cursor : Cursor)
  /-- A millisecond has no sequence number left. -/
  | sequenceOverflow (ts : Int64)
  /-- A page has more rows than memory can be asked for. No caller is told: the program ends
  there. -/
  | capacityOverflow
deriving DecidableEq, Repr

/-- The wording of a failed access. -/
def SourceError.message : SourceError → String
  | store cause => s!"Database error: {cause.message}"
  | brokenOff => "Event source unavailable: injected failure"
  | reservedSequence cursor => s!"Invalid event: cursor {cursor.render} uses a reserved sequence"
  | sequenceOverflow ts => s!"Invalid event: sequence overflow at {ts}"
  | capacityOverflow => "capacity overflow"

/-- The answer to a query: views in order, and the reason when they are not all. -/
structure Scan where
  /-- The views handed out. -/
  views : List View
  /-- Why the scan broke off, if it did. -/
  failure : Option SourceError := none
deriving DecidableEq, Repr

/-- A log of views that can be asked for a range of cursors. Asking may change the log. -/
class ViewSource (σ : Type) where
  /-- Asks for the views of a range. -/
  query : σ → CursorRange → Except SourceError Scan × σ

end Pacing
