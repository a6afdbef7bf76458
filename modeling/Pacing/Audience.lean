/-!
# Locations, audiences and buckets

A boost competes at one location. Everyone forms the general audience of a location, and boosts
that are safe for all also compete for its safe audience. Views are counted in buckets, one for
each location and audience.
-/

namespace Pacing

/-- Where boosts are shown. -/
inductive Location where
  /-- The feed of news. -/
  | newsfeed
  /-- The bar at the side. -/
  | sidebar
deriving DecidableEq, Repr, Inhabited

namespace Location

/-- The name of a location. -/
def name : Location → String
  | newsfeed => "newsfeed"
  | sidebar => "sidebar"

/-- The location of a name. -/
def ofName? (name : String) : Option Location :=
  if name = "newsfeed" then some newsfeed
  else if name = "sidebar" then some sidebar
  else none

/-- A location is found by its name. -/
theorem ofName?_name (l : Location) : ofName? l.name = some l := by
  cases l <;> simp [ofName?, name]

end Location

/-- Whom a boost is shown to. -/
inductive Audience where
  /-- Everyone; every boost competes here. -/
  | general
  /-- Those who see only what is safe for all. -/
  | safe
deriving DecidableEq, Repr, Inhabited

namespace Audience

/-- The name of an audience. -/
def name : Audience → String
  | general => "open"
  | safe => "safe"

/-- The audience of a name. -/
def ofName? (name : String) : Option Audience :=
  if name = "open" then some general
  else if name = "safe" then some safe
  else none

/-- An audience is found by its name. -/
theorem ofName?_name (a : Audience) : ofName? a.name = some a := by
  cases a <;> simp [ofName?, name]

end Audience

/-- Where a view is counted: the audience of a location. -/
structure Bucket where
  /-- The location of the boost that was viewed. -/
  location : Location
  /-- The audience that the view counts for. -/
  audience : Audience
deriving DecidableEq, Repr, Inhabited

namespace Bucket

/-- The place of a bucket in the order of locations, then audiences. -/
def index : Bucket → Nat
  | ⟨.newsfeed, .general⟩ => 0
  | ⟨.newsfeed, .safe⟩ => 1
  | ⟨.sidebar, .general⟩ => 2
  | ⟨.sidebar, .safe⟩ => 3

/-- Every bucket, in order. -/
def all : List Bucket :=
  [⟨.newsfeed, .general⟩, ⟨.newsfeed, .safe⟩, ⟨.sidebar, .general⟩, ⟨.sidebar, .safe⟩]

/-- The name of a bucket: its location and its audience. -/
def name (b : Bucket) : String := b.location.name ++ "_" ++ b.audience.name

/-- No two buckets share a place in the order. -/
theorem index_inj {a b : Bucket} : a.index = b.index ↔ a = b := by
  obtain ⟨l, a⟩ := a
  obtain ⟨m, b⟩ := b
  cases l <;> cases a <;> cases m <;> cases b <;> decide

instance : Ord Bucket := ⟨compareOn index⟩

instance : Std.TransOrd Bucket := inferInstanceAs (Std.TransCmp (compareOn index))

instance : Std.LawfulEqOrd Bucket where
  eq_of_compare h := index_inj.mp (Std.LawfulEqOrd.eq_of_compare (α := Nat) h)

end Bucket

/-- A value for each audience, where there is one. -/
structure PerAudience (α : Type) where
  /-- The value for the general audience. -/
  general : Option α := none
  /-- The value for the safe audience. -/
  safe : Option α := none
deriving DecidableEq, Repr, Inhabited

namespace PerAudience

variable {α : Type}

/-- The value for an audience. -/
def get? (p : PerAudience α) : Audience → Option α
  | .general => p.general
  | .safe => p.safe

/-- Sets the value for an audience. -/
def set (p : PerAudience α) (a : Audience) (x : α) : PerAudience α :=
  match a with
  | .general => { p with general := some x }
  | .safe => { p with safe := some x }

/-- The values present with their audiences, the general one first. -/
def toList (p : PerAudience α) : List (Audience × α) :=
  (p.general.map (Prod.mk .general)).toList ++ (p.safe.map (Prod.mk .safe)).toList

end PerAudience

end Pacing
