import Pacing.Rank
import Pacing.Window

/-!
# The ranking engine

A cycle fetches the active boosts, advances the window to the present, ranks every active boost
and stores the rankings. Only a failure to fetch the active boosts stops a cycle; a failed scan is
reported and the boosts are ranked on the window as it is, and a refused ranking costs only that
boost its new rank.
-/

namespace Pacing

/-- The window and the active boosts as of the last cycle. -/
structure Engine where
  /-- The sliding window. -/
  window : Window
  /-- The active boosts by id. -/
  roster : Std.ExtTreeMap String Boost := ∅
deriving Inhabited

/-- What a cycle did. -/
structure CycleReport where
  /-- The time of the cycle. -/
  now : Int64
  /-- The number of active boosts. -/
  active : Nat
  /-- The number of new views read. -/
  ingested : Nat := 0
  /-- The number of expired views read. -/
  pruned : Nat := 0
  /-- The number of views read that could not be counted. -/
  unresolved : Nat := 0
  /-- The number of rankings stored. -/
  written : Nat := 0
  /-- The number of rankings refused. -/
  failed : Nat := 0
  /-- Why the scan of new views was abandoned, if it was. -/
  ingestError : Option ScanError := none
  /-- Why the scan of expired views was abandoned, if it was. -/
  pruneError : Option ScanError := none
  /-- The low watermark after the cycle. -/
  low : Option Cursor := none
  /-- The high watermark after the cycle. -/
  high : Option Cursor := none
deriving DecidableEq, Repr

/-- A cycle that did not take place, because the active boosts could not be fetched. -/
structure RefreshError where
  /-- What the repository answered. -/
  cause : RepositoryError
deriving DecidableEq, Repr

/-- The wording of a cycle that did not take place. -/
def RefreshError.message (e : RefreshError) : String :=
  s!"Failed to refresh active boosts: {e.cause.message}"

namespace Engine

/-- What a cycle leaves behind. -/
structure Cycle (σ ρ : Type) where
  /-- The engine after the cycle. -/
  engine : Engine
  /-- The log after the queries of the cycle. -/
  log : σ
  /-- The repository with the rankings stored. -/
  repository : ρ
  /-- The rankings offered to the repository in order, each with whether it was stored. -/
  offered : List (Ranking × Bool) := []
  /-- The ids that the repository answered for during the scan of new views. -/
  asked : List String := []
  /-- What the cycle did, or why it did not take place. -/
  report : Except RefreshError CycleReport

/-- An engine with an empty window. -/
def start (seconds : Int64) : Engine := { window := { seconds } }

/-- The engine with the state of a saved window. -/
def restore (e : Engine) (state : WindowState) : Engine :=
  { e with window := { e.window with state } }

/-- The boosts of a list by id; of two with one id the later counts. -/
def rosterOf (boosts : List Boost) : Std.ExtTreeMap String Boost :=
  boosts.foldl (fun roster b => roster.insert b.id b) ∅

/-- Offers rankings to a repository, one after the other. -/
def offer {ρ : Type} [BoostRepository ρ] : ρ → List Ranking → List (Ranking × Bool) × ρ
  | repository, [] => ([], repository)
  | repository, r :: rest =>
    match BoostRepository.store repository r with
    | .ok repository =>
      let (offered, repository) := offer repository rest
      ((r, true) :: offered, repository)
    | .error _ =>
      let (offered, repository) := offer repository rest
      ((r, false) :: offered, repository)

/-- The views that a finished scan could not count. -/
def unresolvedIn : Except ScanError Tally → Nat
  | .ok tally => tally.unresolved
  | .error _ => 0

/-- The views that a finished scan has read. -/
def eventsIn : Except ScanError Tally → Nat
  | .ok tally => tally.events
  | .error _ => 0

/-- The reason for which a scan was abandoned. -/
def errorIn : Except ScanError Tally → Option ScanError
  | .ok _ => none
  | .error e => some e

variable {σ ρ : Type} [ViewSource σ] [BoostRepository ρ]

/-- Runs one cycle at a time. -/
def cycle (e : Engine) (now : Int64) (log : σ) (repository : ρ) : Cycle σ ρ :=
  match BoostRepository.active repository with
  | .error cause =>
    { engine := { e with roster := ∅ }, log, repository, report := .error ⟨cause⟩ }
  | .ok boosts =>
    let roster := rosterOf boosts
    let advance := e.window.advance now log (BoostRepository.lookup repository)
    let state := advance.window.state
    let (offered, repository) := offer repository (roster.toList.map fun (_, b) => state.ranking b)
    { engine := { window := advance.window, roster }
      log := advance.log
      repository, offered
      asked := advance.asked
      report := .ok {
        now
        active := roster.size
        ingested := eventsIn advance.ingest
        pruned := eventsIn advance.prune
        unresolved := unresolvedIn advance.ingest + unresolvedIn advance.prune
        written := offered.countP (·.2)
        failed := offered.countP (!·.2)
        ingestError := errorIn advance.ingest
        pruneError := errorIn advance.prune
        low := state.low
        high := state.high } }

end Engine

end Pacing
