import Pacing.Window.State

/-!
# Ranks

The rank of a boost for an audience is the number of views that it is entitled to, divided by the
number that it has. A rank above 1 means that the boost is behind its share.
-/

namespace Pacing

/-- The rank of a boost for one audience, with what it is computed from. -/
structure AudienceRank where
  /-- The audience. -/
  audience : Audience
  /-- The views of all boosts in the bucket. -/
  total : UInt64
  /-- The declared share of the boost. -/
  share : Float
  /-- The views that the share entitles to. -/
  target : Float
  /-- The views that the boost has, in all its buckets, as 64 bits keep them. -/
  actual : UInt64
  /-- The rank. -/
  rank : Float
deriving DecidableEq, Repr

namespace WindowState

/-- Ranks a boost for an audience. A boost without views is ranked as if it had one. -/
def audienceRank (s : WindowState) (b : Boost) (a : Audience) : AudienceRank :=
  let total := s.total ⟨b.location, a⟩
  let share := b.share a
  let target := total.toFloat * share
  let actual := UInt64.ofNat (s.viewsOf b.id)
  { audience := a
    total, share, target, actual
    rank := target / (max actual 1).toFloat }

/-- The ranks of a boost for the audiences that it competes for. -/
def audienceRanks (s : WindowState) (b : Boost) : List AudienceRank :=
  b.audiences.map (s.audienceRank b)

/-- The ranking of a boost. -/
def ranking (s : WindowState) (b : Boost) : Ranking :=
  { boost := b.id
    ranks := (s.audienceRanks b).foldl (fun ranks r => ranks.set r.audience r.rank) {} }

end WindowState

end Pacing
