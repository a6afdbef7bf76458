import Pacing.Repository
import Pacing.Source

/-!
# Tallies: what a scan of the window has read

The window is moved by two scans, one that ingests new views and one that prunes expired ones. Both
count what they read and insist that cursors rise strictly. `readWhile` feeds views to a scan until
one is refused, and keeps what had been read up to there.
-/

namespace Pacing

/-- The two scans that move the window. -/
inductive Phase where
  /-- Counting new views. -/
  | ingest
  /-- Taking back expired views. -/
  | prune
deriving DecidableEq, Repr

/-- The name of a scan. -/
def Phase.name : Phase → String
  | ingest => "ingest"
  | prune => "prune"

/-- Why a scan was abandoned. -/
inductive ScanError where
  /-- The log failed. -/
  | source (phase : Phase) (cause : SourceError)
  /-- A boost could not be looked up. -/
  | resolution (phase : Phase) (boost : String) (cause : RepositoryError)
  /-- A view does not lie past the one before it. -/
  | outOfOrder (phase : Phase) (previous got : Cursor)
deriving DecidableEq, Repr

/-- The wording of an abandoned scan. -/
def ScanError.message : ScanError → String
  | source phase cause => s!"{phase.name} scan failed: {cause.message}"
  | resolution phase boost cause =>
    s!"{phase.name} scan could not resolve boost {boost}: {cause.message}"
  | outOfOrder phase previous got =>
    s!"{phase.name} scan returned {got.render} after {previous.render}"

/-- What a scan has read. -/
structure Tally where
  /-- The number of views read. -/
  events : Nat := 0
  /-- How many of them were counted, or taken back. -/
  counted : Nat := 0
  /-- How many of them belong to no boost that could be counted. -/
  unresolved : Nat := 0
  /-- The cursor of the last view read. -/
  last : Option Cursor := none
deriving DecidableEq, Repr, Inhabited

namespace Tally

/-- Notes that a view was read; its cursor must lie past the one before it. -/
def observe (phase : Phase) (t : Tally) (c : Cursor) : Except ScanError Tally :=
  match t.last with
  | some previous =>
    if previous < c then .ok { t with events := t.events + 1, last := some c }
    else .error (.outOfOrder phase previous c)
  | none => .ok { t with events := t.events + 1, last := some c }

/-- Notes that the view just read was counted. -/
def count (t : Tally) : Tally := { t with counted := t.counted + 1 }

/-- Notes that the view just read belongs to no boost that could be counted. -/
def skip (t : Tally) : Tally := { t with unresolved := t.unresolved + 1 }

end Tally

/-- Feeds views to a scan until one is refused. -/
def readWhile {σ : Type} (note : σ → View → Except ScanError σ) :
    σ → List View → σ × Option ScanError
  | s, [] => (s, none)
  | s, v :: rest =>
    match note s v with
    | .ok s' => readWhile note s' rest
    | .error e => (s, some e)

/-- Feeds a whole scan of the log to a scan of the window. A failure of the log is met after the
views that came before it. -/
def readScan {σ : Type} (phase : Phase) (note : σ → View → Except ScanError σ) (start : σ)
    (scan : Scan) : σ × Option ScanError :=
  match readWhile note start scan.views with
  | (s, some e) => (s, some e)
  | (s, none) => (s, scan.failure.map (.source phase))

end Pacing
