import Pacing.Cursor
import Pacing.Day

/-!
# Views

One view of one post, as the log of views holds it.
-/

namespace Pacing

/-- A recorded view. -/
structure View where
  /-- The position of the view in the log. -/
  cursor : Cursor
  /-- The campaign tag that tells what was viewed. -/
  tag : String
  /-- The day under which the view is filed. -/
  day : Day
deriving DecidableEq, Repr, Inhabited

namespace View

/-- A view filed under the day of its own timestamp. -/
def filed (cursor : Cursor) (tag : String) : View := ⟨cursor, tag, Day.ofTimestamp cursor.ts⟩

/-- The order in which a log keeps its views: by day, and by cursor within a day. -/
def Before (a b : View) : Prop := a.day < b.day ∨ a.day = b.day ∧ a.cursor < b.cursor

instance (a b : View) : Decidable (a.Before b) := by unfold Before; infer_instance

end View

end Pacing
