import Pacing.Window.Intake
import Pacing.Window.TakeBack

/-!
# The sliding window

A window has a length and a state. Advancing it to a time ingests the views up to that time, then
prunes those that are older than the window is long. Each scan first stages what it reads, and
commits the stage when it is complete. A scan that fails leaves counters and watermarks as they
were, so that the next advance reads the same range again.
-/

namespace Pacing

/-- A window of a given length with its counters. -/
structure Window where
  /-- The length in seconds. -/
  seconds : Int64
  /-- The counters and watermarks. -/
  state : WindowState := {}
deriving DecidableEq, Inhabited

/-- What one scan has read, before anything is put into the window. -/
structure Window.Scanned (σ τ : Type) where
  /-- The stage of a complete scan, or none when nothing was asked for or the scan was abandoned. -/
  stage : Option τ := none
  /-- The log after the query. -/
  log : σ
  /-- What was read, or why the scan was abandoned. -/
  result : Except ScanError Tally
  /-- The ids that the repository answered for, in the order asked. -/
  asked : List String := []

/-- What one scan of the window leaves behind. -/
structure Window.ScanOutcome (σ : Type) where
  /-- The state, changed only when the scan is complete. -/
  state : WindowState
  /-- The log after the query. -/
  log : σ
  /-- What was read, or why the scan was abandoned. -/
  result : Except ScanError Tally
  /-- The ids that the repository answered for, in the order asked. -/
  asked : List String := []

/-- Puts the stage of a scan into the window, if there is one. -/
def Window.Scanned.commitBy {σ τ : Type} (commit : WindowState → τ → WindowState)
    (state : WindowState) (scanned : Scanned σ τ) : ScanOutcome σ where
  state := scanned.stage.elim state (commit state)
  log := scanned.log
  result := scanned.result
  asked := scanned.asked

/-- How the stages of complete scans are put into a window. -/
structure Window.Commits where
  /-- Puts a complete intake into the window. -/
  intake : WindowState → Intake → WindowState := WindowState.commitIntake
  /-- Puts a complete take-back into the window. -/
  takeBack : WindowState → TakeBack → WindowState := WindowState.commitTakeBack

/-- What one advance of the window leaves behind. -/
structure Window.Advance (σ : Type) where
  /-- The window after both scans. -/
  window : Window
  /-- The log after both queries. -/
  log : σ
  /-- The outcome of the scan of new views. -/
  ingest : Except ScanError Tally
  /-- The outcome of the scan of expired views. -/
  prune : Except ScanError Tally
  /-- The ids that the repository answered for, in the order asked. -/
  asked : List String

namespace Window

/-- The length in milliseconds, kept within 64 bits. -/
def millis (w : Window) : Int64 := Int64.ofIntClamp (w.seconds.toInt * 1000)

/-- The earliest timestamp that is in the window at a time, kept within 64 bits. -/
def startAt (w : Window) (now : Int64) : Int64 :=
  Int64.ofIntClamp (now.toInt - w.millis.toInt)

/-- The state in which a window that has not begun begins: empty, with both watermarks at the
start of the window. -/
def begin (w : Window) (now : Int64) : WindowState :=
  match w.state.high with
  | some _ => w.state
  | none =>
    let start := Cursor.floor (w.startAt now)
    { w.state with low := some start, high := some start }

variable {σ : Type} [ViewSource σ]

/-- Stages the new views up to `now`. -/
def scanIntake (state : WindowState) (now : Int64) (log : σ) (lookup : Lookup) :
    Scanned σ Intake :=
  match state.high with
  | none => { log, result := .ok {} }
  | some high =>
    let range := Intake.range high now
    if range.isEmpty then { log, result := .ok {} }
    else
      match ViewSource.query log range with
      | (.error e, log) => { log, result := .error (.source .ingest e) }
      | (.ok scan, log) =>
        match readScan .ingest (Intake.note lookup) {} scan with
        | (s, some e) => { log, result := .error e, asked := s.asked }
        | (s, none) => { stage := some s, log, result := .ok s.tally, asked := s.asked }

/-- Stages the views that `start` has left behind. -/
def scanTakeBack (state : WindowState) (start : Int64) (log : σ) : Scanned σ TakeBack :=
  match state.low, state.high with
  | some low, some high =>
    let range := TakeBack.range low high start
    if range.isEmpty then { log, result := .ok {} }
    else
      match ViewSource.query log range with
      | (.error e, log) => { log, result := .error (.source .prune e) }
      | (.ok scan, log) =>
        match readScan .prune (TakeBack.note state) {} scan with
        | (_, some e) => { log, result := .error e }
        | (s, none) => { stage := some s, log, result := .ok s.tally }
  | _, _ => { log, result := .ok {} }

/-- Scans the new views up to `now` and counts them by a given commit. -/
def ingestBy (commit : WindowState → Intake → WindowState) (state : WindowState) (now : Int64)
    (log : σ) (lookup : Lookup) : ScanOutcome σ :=
  (scanIntake state now log lookup).commitBy commit state

/-- Scans the views that `start` has left behind and takes them back by a given commit. -/
def pruneBy (commit : WindowState → TakeBack → WindowState) (state : WindowState) (start : Int64)
    (log : σ) : ScanOutcome σ :=
  (scanTakeBack state start log).commitBy commit state

/-- Moves the window to a time by given commits: ingests new views, then prunes expired ones. -/
def advanceBy (commits : Commits) (w : Window) (now : Int64) (log : σ) (lookup : Lookup) :
    Advance σ :=
  let ingested := ingestBy commits.intake (w.begin now) now log lookup
  let pruned := pruneBy commits.takeBack ingested.state (w.startAt now) ingested.log
  { window := { w with state := pruned.state }
    log := pruned.log
    ingest := ingested.result
    prune := pruned.result
    asked := ingested.asked }

/-- Scans the new views up to `now` and counts them. -/
def ingest (state : WindowState) (now : Int64) (log : σ) (lookup : Lookup) : ScanOutcome σ :=
  ingestBy WindowState.commitIntake state now log lookup

/-- Scans the views that `start` has left behind and takes them back. -/
def prune (state : WindowState) (start : Int64) (log : σ) : ScanOutcome σ :=
  pruneBy WindowState.commitTakeBack state start log

/-- Moves the window to a time: ingests new views, then prunes expired ones. -/
def advance (w : Window) (now : Int64) (log : σ) (lookup : Lookup) : Advance σ :=
  w.advanceBy {} now log lookup

/-- An advance is an intake from the state in which the window begins, and then a take-back from the
state that the intake leaves. -/
theorem advance_eq (w : Window) (now : Int64) (log : σ) (lookup : Lookup) :
    w.advance now log lookup =
      let ingested := ingest (w.begin now) now log lookup
      let pruned := prune ingested.state (w.startAt now) ingested.log
      { window := { w with state := pruned.state }
        log := pruned.log
        ingest := ingested.result
        prune := pruned.result
        asked := ingested.asked } :=
  rfl

end Window

end Pacing
