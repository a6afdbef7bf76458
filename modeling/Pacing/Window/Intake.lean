import Pacing.CampaignTag
import Pacing.Window.State
import Pacing.Window.Tally

/-!
# Intake: counting new views

An intake stages what a scan of new views will add to the window. Each boost is looked up once per
intake, so that all its views in one intake are counted under one profile. Nothing reaches the
window before the scan is complete.
-/

namespace Pacing

/-- The staged effect of a scan of new views. -/
structure Intake where
  /-- What has been read. -/
  tally : Tally := {}
  /-- The boosts looked up so far, with the profile found or none. -/
  known : Std.ExtTreeMap String (Option Profile) := ∅
  /-- The ids that the repository was asked for and answered, in that order. -/
  asked : List String := []
  /-- The views gained by each bucket. -/
  gained : Std.ExtTreeMap Bucket Nat := ∅
  /-- The run of views of each boost that is counted. -/
  runs : Std.ExtTreeMap String Segment := ∅
deriving DecidableEq, Inhabited

/-- How a repository answers a lookup. -/
abbrev Lookup := String → Except RepositoryError (Option Boost)

namespace Intake

/-- The range of cursors that an intake reads: past the high watermark, up to now. -/
def range (high : Cursor) (now : Int64) : CursorRange :=
  ⟨.excluded high, .included (.ceiling now)⟩

/-- Adds one view of a boost to each of its buckets. -/
def gain (gained : Std.ExtTreeMap Bucket Nat) (p : Profile) : Std.ExtTreeMap Bucket Nat :=
  p.buckets.foldl (fun g b => g.alter b fun n => some (n.getD 0 + 1)) gained

/-- Stages one view of a boost whose lookup is known. -/
def assign (s : Intake) (id : String) (profile : Option Profile) (c : Cursor) : Intake :=
  match profile with
  | none => { s with tally := s.tally.skip }
  | some p =>
    { s with
      tally := s.tally.count
      gained := gain s.gained p
      runs := s.runs.alter id fun
        | none => some (.single p c)
        | some run => some (run.extend c) }

/-- Stages one view. -/
def note (lookup : Lookup) (s : Intake) (v : View) : Except ScanError Intake := do
  let s := { s with tally := ← s.tally.observe .ingest v.cursor }
  match CampaignTag.resolve? v.tag with
  | none => return { s with tally := s.tally.skip }
  | some id =>
    match s.known[id]? with
    | some profile => return s.assign id profile v.cursor
    | none =>
      match lookup id with
      | .error e => .error (.resolution .ingest id e)
      | .ok boost =>
        let profile := boost.map Boost.profile
        return { s with known := s.known.insert id profile, asked := s.asked ++ [id] }.assign id
          profile v.cursor

/-- The boosts with views that could not be counted. -/
def missed (s : Intake) : List String :=
  s.known.toList.filterMap fun (id, profile) => if profile.isNone then some id else none

end Intake

/-- Puts a complete intake into the window. -/
def WindowState.commitIntake (state : WindowState) (s : Intake) : WindowState :=
  let state := state.addTotals s.gained.toList
  let state := state.sealAll s.missed
  let state := state.appendAll s.runs.toList
  { state with high := s.tally.last <|> state.high }

end Pacing
