import Pacing.Boost
import Pacing.Store.Error

/-!
# Repositories of boosts

A repository knows the boosts and which of them are active, and keeps the latest ranking of each.
-/

namespace Pacing

/-- A failed access to a repository. -/
inductive RepositoryError where
  /-- A table could not be read or written. -/
  | store (cause : Store.Error)
  /-- The text of a stored ranking is no ranking. -/
  | unreadableRanks
  /-- A boost has a location that does not exist. -/
  | unknownLocation (boost location : String)
  /-- A stored ranking names an audience that does not exist. -/
  | unknownAudience (audience : String)
  /-- The repository cannot be reached. -/
  | outage
  /-- The repository refuses to store a ranking of this boost. -/
  | writeRejected (boost : String)
deriving DecidableEq, Repr

/-- The wording of a failed access. -/
def RepositoryError.message : RepositoryError → String
  | store cause => s!"Database error: {cause.message}"
  | unreadableRanks => "Serialization error"
  | unknownLocation boost location =>
    s!"Invalid boost row: boost {boost} has unknown target location '{location}'"
  | unknownAudience audience => s!"Invalid boost row: unknown audience '{audience}'"
  | outage => "Repository unavailable: injected outage"
  | writeRejected boost => s!"Repository unavailable: write rejected for {boost}"

/-- A repository of boosts and their rankings. -/
class BoostRepository (ρ : Type) where
  /-- The boosts that are shown now. -/
  active : ρ → Except RepositoryError (List Boost)
  /-- Looks up a boost by its id, active or not. -/
  lookup : ρ → String → Except RepositoryError (Option Boost)
  /-- Stores a ranking in place of an earlier one of the same boost. -/
  store : ρ → Ranking → Except RepositoryError ρ

end Pacing
