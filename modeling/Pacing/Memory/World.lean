import Pacing.Memory.Log
import Pacing.Memory.Repository
import Pacing.Snapshot
import Pacing.Window

/-!
# A window over a log and a repository in memory

The world around a window is a log of views and a repository of boosts. Between two advances
anything may happen to either: views are filed, boosts come and go, and both may fail. A rehearsal
is a window in such a world; it is moved by steps, each of which is a change of the world, an
advance, or a restart from a snapshot.
-/

namespace Pacing.Memory

/-- A log and a repository. -/
structure World where
  /-- The log of views. -/
  log : Log := {}
  /-- The repository of boosts. -/
  repository : Repository := {}

/-- What can happen to the world between two advances. -/
inductive Change where
  /-- Views are filed. -/
  | push (views : List View)
  /-- The next query of the log will break off after some views. -/
  | failNextAfter (n : Nat)
  /-- A boost is added or replaced, and is active. -/
  | upsert (boost : Boost)
  /-- A boost stops being active. -/
  | deactivate (id : String)
  /-- A boost is forgotten. -/
  | remove (id : String)
  /-- The repository becomes unavailable, or available again. -/
  | setDown (isDown : Bool)
  /-- The rankings of a boost will be refused. -/
  | refuse (id : String)

/-- The world after a change. -/
def World.change (w : World) : Change → World
  | .push views => { w with log := w.log.pushAll views }
  | .failNextAfter n => { w with log := w.log.failNextAfter n }
  | .upsert boost => { w with repository := w.repository.upsert boost }
  | .deactivate id => { w with repository := w.repository.deactivate id }
  | .remove id => { w with repository := w.repository.remove id }
  | .setDown isDown => { w with repository := w.repository.setDown isDown }
  | .refuse id => { w with repository := w.repository.refuse id }

/-- A window in its world. -/
structure Rehearsal where
  /-- The window. -/
  window : Window
  /-- The log and the repository. -/
  world : World := {}
  /-- How many lookups the repository has answered. -/
  lookups : Nat := 0

namespace Rehearsal

/-- What happens to a window in its world. -/
inductive Step where
  /-- The world changes. -/
  | change (c : Change)
  /-- The window is moved to a time. -/
  | advance (now : Int64)
  /-- The window is captured and rebuilt with a given length in seconds. -/
  | restart (seconds : Int64)

/-- The outcomes of the two scans of an advance. -/
structure Outcome where
  /-- The outcome of the scan of new views. -/
  ingest : Except ScanError Tally
  /-- The outcome of the scan of expired views. -/
  prune : Except ScanError Tally

/-- A rehearsal that begins with an empty window in an empty world. -/
def start (seconds : Int64) : Rehearsal := { window := { seconds } }

/-- The rehearsal after a change of the world. -/
def change (r : Rehearsal) (c : Change) : Rehearsal := { r with world := r.world.change c }

/-- Moves the window to a time. -/
def advance (r : Rehearsal) (now : Int64) : Rehearsal × Outcome :=
  let done := r.window.advance now r.world.log r.world.repository.lookup
  ({ window := done.window
     world := { r.world with log := done.log }
     lookups := r.lookups + done.asked.length },
   { ingest := done.ingest, prune := done.prune })

/-- Asks the log for the views of a range. -/
def query (r : Rehearsal) (range : CursorRange) : Rehearsal × Scan :=
  let (scan, log) := r.world.log.query range
  ({ r with world := { r.world with log } }, scan)

/-- Looks up a boost. -/
def lookup (r : Rehearsal) (id : String) :
    Rehearsal × Except RepositoryError (Option Boost) :=
  match r.world.repository.lookup id with
  | .ok boost => ({ r with lookups := r.lookups + 1 }, .ok boost)
  | .error e => (r, .error e)

/-- Captures the window and rebuilds it with a given length. -/
def restart (r : Rehearsal) (seconds : Int64) : Except Snapshot.Inconsistency Rehearsal :=
  (Snapshot.capture r.window.state r.window.seconds 0).toState.map fun state =>
    { r with window := { seconds, state } }

/-- The rehearsal after a step. A window that cannot be rebuilt stays as it is. -/
def step (r : Rehearsal) : Step → Rehearsal
  | .change c => r.change c
  | .advance now => (r.advance now).1
  | .restart seconds => (r.restart seconds).toOption.getD r

/-- The rehearsal after several steps. -/
def run (r : Rehearsal) (steps : List Step) : Rehearsal := steps.foldl step r

end Rehearsal

end Pacing.Memory
