import Pacing.Audience

/-!
# Boosts and their rankings

A boost is a post that is paid for at one location. It declares a share of the views of each
audience that it competes for, and every cycle ranks it for those audiences.
-/

namespace Pacing

/-- A paid post with the shares of views that it is entitled to. -/
structure Boost where
  /-- The name of the boost. -/
  id : String
  /-- Where it is shown. -/
  location : Location
  /-- Whether it competes for the safe audience too. -/
  safeForAll : Bool
  /-- The declared shares. -/
  shares : PerAudience Float := {}
deriving DecidableEq, Repr, Inhabited

/-- The audiences that a boost competes for. -/
def audiencesFor (safeForAll : Bool) : List Audience :=
  if safeForAll then [.general, .safe] else [.general]

namespace Boost

/-- The share of an audience's views; 0 when none is declared. -/
def share (b : Boost) (a : Audience) : Float := (b.shares.get? a).getD 0

/-- The audiences that the boost competes for. -/
def audiences (b : Boost) : List Audience := audiencesFor b.safeForAll

/-- Whether the boost competes for an audience. -/
def Competes (b : Boost) (a : Audience) : Prop := a ∈ b.audiences

instance (b : Boost) (a : Audience) : Decidable (b.Competes a) := by
  unfold Competes
  infer_instance

/-- Every boost competes for the general audience. -/
theorem competes_general (b : Boost) : b.Competes .general := by
  unfold Competes audiences audiencesFor
  split <;> decide

/-- Only boosts that are safe for all compete for the safe audience. -/
theorem competes_safe_iff (b : Boost) : b.Competes .safe ↔ b.safeForAll = true := by
  unfold Competes audiences audiencesFor
  split <;> simp_all

end Boost

/-- The ranks of a boost in one cycle. -/
structure Ranking where
  /-- The boost that is ranked. -/
  boost : String
  /-- Its rank for each audience that it competes for. -/
  ranks : PerAudience Float := {}
deriving DecidableEq, Repr, Inhabited

end Pacing
