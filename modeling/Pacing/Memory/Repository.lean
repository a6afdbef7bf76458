import Pacing.Repository
import Std.Data.ExtTreeMap
import Std.Data.ExtTreeSet

/-!
# A repository of boosts in memory

The repository remembers boosts after they stop being active. It can be made unavailable, and it
can be told to refuse the rankings of single boosts.
-/

namespace Pacing.Memory

/-- Boosts and rankings with the means of failure. -/
structure Repository where
  /-- The boosts that can be looked up. -/
  boosts : Std.ExtTreeMap String Boost := ∅
  /-- The ids of the active boosts. -/
  activeIds : Std.ExtTreeSet String := ∅
  /-- The latest ranking of each boost that has one. -/
  rankings : Std.ExtTreeMap String Ranking := ∅
  /-- The boosts whose rankings are refused. -/
  refused : Std.ExtTreeSet String := ∅
  /-- Whether the repository cannot be reached. -/
  isDown : Bool := false

namespace Repository

/-- Puts a boost in place of an earlier one of its id and makes it active. -/
def upsert (r : Repository) (b : Boost) : Repository :=
  { r with boosts := r.boosts.insert b.id b, activeIds := r.activeIds.insert b.id }

/-- Stops showing a boost; it can still be looked up. -/
def deactivate (r : Repository) (id : String) : Repository :=
  { r with activeIds := r.activeIds.erase id }

/-- Forgets a boost. -/
def remove (r : Repository) (id : String) : Repository :=
  { r with boosts := r.boosts.erase id, activeIds := r.activeIds.erase id }

/-- Refuses the rankings of a boost from now on. -/
def refuse (r : Repository) (id : String) : Repository := { r with refused := r.refused.insert id }

/-- Makes the repository unavailable, or available again. -/
def setDown (r : Repository) (isDown : Bool) : Repository := { r with isDown := isDown }

/-- The active boosts in the order of their ids. -/
def active (r : Repository) : Except RepositoryError (List Boost) :=
  if r.isDown then .error .outage else .ok (r.activeIds.toList.filterMap (r.boosts[·]?))

/-- Looks up a boost, active or not. -/
def lookup (r : Repository) (id : String) : Except RepositoryError (Option Boost) :=
  if r.isDown then .error .outage else .ok r.boosts[id]?

/-- Stores a ranking in place of an earlier one. -/
def store (r : Repository) (ranking : Ranking) : Except RepositoryError Repository :=
  if r.isDown ∨ ranking.boost ∈ r.refused then .error (.writeRejected ranking.boost)
  else .ok { r with rankings := r.rankings.insert ranking.boost ranking }

instance : BoostRepository Repository := ⟨active, lookup, store⟩

end Repository

end Pacing.Memory
