import Pacing.Engine
import Pacing.Snapshot.File

/-!
# The scheduler

The scheduler runs cycles one after the other, each at the time it begins, and saves the window
after every cycle that took place. A window that cannot be saved does not undo its cycle.
-/

namespace Pacing.Scheduler

/-- Where the window is saved after a cycle. -/
inductive Target where
  /-- It is not saved. -/
  | nowhere
  /-- It is saved to the file. -/
  | file
  /-- It is to be saved where that is not possible. -/
  | unwritable
deriving DecidableEq, Repr

/-- An engine with its log, its repository and the file that its window is saved to. -/
structure Task (σ ρ : Type) where
  /-- The engine. -/
  engine : Engine
  /-- The log of views. -/
  log : σ
  /-- The repository of boosts. -/
  repository : ρ
  /-- The saved window. -/
  file : SnapshotFile := .absent

namespace Task

variable {σ ρ : Type} [ViewSource σ] [BoostRepository ρ]

/-- Runs one cycle and saves the window. A cycle that did not take place saves nothing. -/
def cycle (t : Task σ ρ) (now : Int64) (target : Target) (savedAt : Int64) :
    Task σ ρ × Engine.Cycle σ ρ :=
  let done := t.engine.cycle now t.log t.repository
  let file :=
    match done.report, target with
    | .ok _, .file => .save done.engine.window.state done.engine.window.seconds savedAt
    | _, _ => t.file
  ({ engine := done.engine, log := done.log, repository := done.repository, file }, done)

/-- Runs a cycle at each of several times. -/
def run (t : Task σ ρ) (nows : List Int64) (target : Target) (savedAt : Int64) : Task σ ρ :=
  nows.foldl (fun t now => (t.cycle now target savedAt).1) t

/-- Begins anew with a window of a given length, going on from the saved window when there is one
of that length. Tells whether there was. -/
def restart (t : Task σ ρ) (seconds : Int64) :
    Except SnapshotFile.LoadError (Task σ ρ × Bool) :=
  match t.file.load seconds with
  | .error e => .error e
  | .ok none => .ok ({ t with engine := .start seconds }, false)
  | .ok (some state) => .ok ({ t with engine := (Engine.start seconds).restore state }, true)

end Task

end Pacing.Scheduler
