import Pacing.Memory.World
import Pacing.Proofs.Runs

/-!
# Chronicles: a window, its log and what was read

What the counters of a window should be depends on the past: which views were read, and which
profile the boost of each had at that time. A chronicle keeps that past beside the window and its
log. Its steps leave the log and the repository free to behave in any way between two advances.
-/

namespace Pacing

/-- The boost that a view belongs to. -/
def View.boost? (v : View) : Option String := CampaignTag.resolve? v.tag

/-- The contract of a source: it hands out what it holds. A scan that does not break off has every
view of its range, and asking changes nothing about what is held. A log in memory keeps the contract
for every range. A reader of a table keeps it between times of the calendar, with pages that fit into
memory (`Store.ViewReader.query_eq_held`). -/
class HonestSource (σ : Type) [ViewSource σ] where
  /-- The views that the log holds, in the order in which it hands them out. -/
  held : σ → List View
  /-- A query changes nothing about what is held. -/
  held_query (log : σ) (range : CursorRange) : held (ViewSource.query log range).2 = held log
  /-- A scan that did not break off has all views of its range, in the order of the log. -/
  views_of_complete {log : σ} {range : CursorRange} {scan : Scan}
    (hscan : (ViewSource.query log range).1 = .ok scan) (hcomplete : scan.failure = none) :
    scan.views = (held log).filter (·.cursor ∈ range)

instance : HonestSource Memory.Log where
  held := Memory.Log.views
  held_query _ _ := rfl
  views_of_complete {log range scan} hscan hcomplete := by
    cases hfail : log.failAfter with
    | none =>
      simp only [ViewSource.query, Memory.Log.query, hfail, Except.ok.injEq] at hscan
      rw [← hscan]
      rfl
    | some n =>
      simp only [ViewSource.query, Memory.Log.query, hfail, Except.ok.injEq] at hscan
      simp [← hscan] at hcomplete

/-- The log in memory of views that were filed one after the other. -/
def Memory.Log.filing (views : List View) : Memory.Log :=
  Memory.Log.pushAll { ordered := List.Pairwise.nil } views

/-- The profile under which a repository has the views of a boost counted, if it knows the boost. -/
def profileOf (lookup : Lookup) (id : String) : Option Profile :=
  match lookup id with
  | .ok boost => boost.map Boost.profile
  | .error _ => none

/-- A repository that knows every boost and shows it in the newsfeed, not to the safe audience. -/
def inNewsfeed : Lookup := fun id => .ok (some { id, location := .newsfeed, safeForAll := false })

/-- A view that a complete intake has read. -/
structure Reading where
  /-- The view. -/
  view : View
  /-- The profile that its boost resolved to; none when it belongs to no known boost. -/
  profile : Option Profile
deriving DecidableEq

namespace Reading

/-- The reading of a view while a repository answers in a given way. -/
def under (lookup : Lookup) (v : View) : Reading := ⟨v, v.boost?.bind (profileOf lookup)⟩

/-- The place of the view in the log. -/
def cursor (r : Reading) : Cursor := r.view.cursor

/-- The boost that the view belongs to. -/
def boost? (r : Reading) : Option String := r.view.boost?

/-- The buckets that the view was counted in. -/
def buckets (r : Reading) : List Bucket := (r.profile.map Profile.buckets).getD []

end Reading

namespace Window

variable {σ : Type} [ViewSource σ] [HonestSource σ]

/-- The views that an intake reads if it is complete: all those of its range. -/
def freshViews (state : WindowState) (now : Int64) (log : σ) (lookup : Lookup) : List View :=
  match (ingest state now log lookup).result, state.high with
  | .ok _, some high => (HonestSource.held log).filter (·.cursor ∈ Intake.range high now)
  | _, _ => []

/-- The views that a take-back reads if it is complete: all those of its range. -/
def staleViews (state : WindowState) (start : Int64) (log : σ) : List View :=
  match (prune state start log).result, state.low, state.high with
  | .ok _, some low, some high =>
    (HonestSource.held log).filter (·.cursor ∈ TakeBack.range low high start)
  | _, _, _ => []

end Window

/-- A window with its log and its past. -/
structure Chronicle (σ : Type) where
  /-- The window. -/
  window : Window
  /-- The log of views. -/
  log : σ
  /-- What complete intakes have read, in the order of reading. -/
  readings : List Reading := []
  /-- The time of the latest advance. -/
  latest : Option Int64 := none

namespace Chronicle

open HonestSource (held)

/-- What happens to a window. Between two advances the log may become any other. -/
inductive Step (σ : Type) where
  /-- The log is another from now on. -/
  | log (log : σ)
  /-- The window is moved to a time, while the repository answers in a given way. -/
  | advance (now : Int64) (lookup : Lookup)
  /-- The window is captured and rebuilt with a given length in seconds. -/
  | restart (seconds : Int64)

/-- A chronicle that begins with an empty window. -/
def start {σ : Type} (seconds : Int64) (log : σ) : Chronicle σ := { window := { seconds }, log }

variable {σ : Type} [ViewSource σ] [HonestSource σ]

/-- What an advance reads if its intake is complete. -/
def freshReadings (c : Chronicle σ) (now : Int64) (lookup : Lookup) : List Reading :=
  (Window.freshViews (c.window.begin now) now c.log lookup).map (Reading.under lookup)

/-- The views that an advance takes back: those that its take-back reads in a segment of their
boost, if it is complete. -/
def takenBack (c : Chronicle σ) (now : Int64) (lookup : Lookup) : List View :=
  let ingested := Window.ingest (c.window.begin now) now c.log lookup
  (Window.staleViews ingested.state (c.window.startAt now) ingested.log).filter fun v =>
    (TakeBack.countedIn? ingested.state v).isSome

/-- Moves the window to a time and records what was read. -/
def advance (c : Chronicle σ) (now : Int64) (lookup : Lookup) : Chronicle σ :=
  let done := c.window.advance now c.log lookup
  { window := done.window
    log := done.log
    readings := c.readings ++ c.freshReadings now lookup
    latest := some now }

/-- Captures the window and rebuilds it with a given length. -/
def restart (c : Chronicle σ) (seconds : Int64) : Chronicle σ :=
  match (Snapshot.capture c.window.state c.window.seconds 0).toState with
  | .ok state => { c with window := { seconds, state } }
  | .error _ => c

/-- The chronicle after a step. -/
def step (c : Chronicle σ) : Step σ → Chronicle σ
  | .log log => { c with log }
  | .advance now lookup => c.advance now lookup
  | .restart seconds => c.restart seconds

/-- The chronicle after several steps. -/
def run (c : Chronicle σ) (steps : List (Step σ)) : Chronicle σ := steps.foldl step c

/-- The profile that the boost of a view resolved to when the view was read. -/
def resolution (c : Chronicle σ) (v : View) : Option Profile :=
  (c.readings.find? (·.view = v)).bind Reading.profile

/-- The buckets that a view was counted in when it was read. -/
def bucketsOf (c : Chronicle σ) (v : View) : List Bucket :=
  ((c.resolution v).map Profile.buckets).getD []

/-- A step that changes the log only past the high watermark. -/
def Settled (c : Chronicle σ) : Step σ → Prop
  | .log log => ∀ high ∈ c.window.state.high,
      (held log).filter (·.cursor ≤ high) = (held c.log).filter (·.cursor ≤ high)
  | .advance _ _ => True
  | .restart _ => True

instance (c : Chronicle σ) : (a : Step σ) → Decidable (c.Settled a)
  | .log log => inferInstanceAs (Decidable (∀ high ∈ c.window.state.high,
      (held log).filter (·.cursor ≤ high) = (held c.log).filter (·.cursor ≤ high)))
  | .advance _ _ => isTrue trivial
  | .restart _ => isTrue trivial

end Chronicle

end Pacing
