import Pacing.Repository
import Pacing.Store.Affinity
import Pacing.Store.Arithmetic
import Pacing.Store.Column
import Pacing.Store.NamedRows

/-!
# The table of boosts

A row holds a boost with its daily bid. Shares are not stored: the share of an active boost is its
bid over the pool of its location, the sum of the bids of all active boosts there; for the safe
audience the pool is that of the boosts that are safe for all. An inactive boost has no share.
-/

namespace Pacing.Store

/-- What the bids of a location come to. -/
structure Pools where
  /-- The pool of the general audience. -/
  general : Cell
  /-- The pool of the safe audience. -/
  safe : Cell

/-- The pools with zero for what is null. -/
def Pools.orZero (p : Pools) : Pools :=
  let orZero (pool : Cell) : Cell := if pool = .null then .integer 0 else pool
  ⟨orZero p.general, orZero p.safe⟩

/-- A row of the table of boosts. -/
structure BoostRow where
  /-- The name of the boost. -/
  guid : Cell
  /-- The name of its location. -/
  location : Cell
  /-- Whether it is safe for all. -/
  safeForAll : Cell
  /-- What is paid for it each day. -/
  dailyBid : Cell
  /-- Whether it is shown now. -/
  active : Cell
deriving DecidableEq, Repr, Inhabited

namespace BoostRow

/-- The row as its columns store it. -/
def stored (r : BoostRow) : BoostRow :=
  { guid := Affinity.text.store r.guid
    location := Affinity.text.store r.location
    safeForAll := Affinity.integer.store r.safeForAll
    dailyBid := Affinity.real.store r.dailyBid
    active := Affinity.integer.store r.active }

/-- The cells that must have a value, with the names of their columns. -/
def named (r : BoostRow) : List (String × Cell) :=
  [("boosts.target_location", r.location), ("boosts.safe_for_all", r.safeForAll),
    ("boosts.daily_bid", r.dailyBid), ("boosts.active", r.active)]

/-- Whether the boost of the row is shown. -/
def IsActive (r : BoostRow) : Prop := r.active = .integer 1

instance (r : BoostRow) : Decidable r.IsActive := by unfold IsActive; infer_instance

/-- Whether the boost of the row shares the safe pool. A truth value other than zero and one does
not count here. -/
def IsSafe (r : BoostRow) : Prop := r.safeForAll = .integer 1

instance (r : BoostRow) : Decidable r.IsSafe := by unfold IsSafe; infer_instance

/-- Reads a boost from a row with its pools, given the cell that tells whether it is active. -/
def boost (r : BoostRow) (activeCell : Cell) (pools : Pools) : Except RepositoryError Boost := do
  let id ← (Column.text ⟨0, "guid"⟩ r.guid).mapError .store
  let locationName ← (Column.text ⟨1, "target_location"⟩ r.location).mapError .store
  let safeForAll ← (Column.truth ⟨2, "safe_for_all"⟩ r.safeForAll).mapError .store
  let bid ← (Column.double ⟨3, "daily_bid"⟩ r.dailyBid).mapError .store
  let active ← (Column.truth ⟨4, "active"⟩ activeCell).mapError .store
  let general ← (Column.double ⟨5, "open_pool"⟩ pools.general).mapError .store
  let safe ← (Column.double ⟨6, "safe_pool"⟩ pools.safe).mapError .store
  let share (pool : Float) : Float := if active ∧ pool > 0 then bid / pool else 0
  match Location.ofName? locationName with
  | none => .error (.unknownLocation id locationName)
  | some location =>
    return { id, location, safeForAll
             shares := ⟨some (share general), if safeForAll then some (share safe) else none⟩ }

end BoostRow

/-- The table of boosts. -/
abbrev BoostTable := NamedRows BoostRow BoostRow.guid

namespace BoostTable

/-- Adds a row of any cells, as its columns store them. -/
def put (t : BoostTable) (r : BoostRow) : Except Error BoostTable :=
  match missing? r.stored.named with
  | some e => .error e
  | none =>
    match t.insert? r.stored with
    | some t => .ok t
    | none => .error (.unique ["boosts.guid"])

/-- Puts a boost in place of an earlier one of its name. The bid must be a number and not less
than zero. -/
def set (t : BoostTable) (id : String) (location : Location) (safeForAll : Bool) (bid : Float)
    (active : Bool) : Except Error BoostTable :=
  let r : BoostRow :=
    { guid := .text id
      location := .text location.name
      safeForAll := .ofBool safeForAll
      dailyBid := Affinity.real.store (.ofFloat bid)
      active := .ofBool active }
  match missing? r.named with
  | some e => .error e
  | none => if bid < 0 then .error (.check "daily_bid >= 0") else .ok (t.upsert r)

/-- The rows of the active boosts at a location, oldest first. -/
def activeAt (t : BoostTable) (location : Cell) : List BoostRow :=
  t.rows.filter fun r => r.IsActive ∧ r.location = location

/-- The pools of a location as the list of boosts finds them: both are sums over all active boosts
there, and a boost that is not safe adds zero to the safe pool. -/
def listedPools (t : BoostTable) (location : Cell) : Pools :=
  let rows := t.activeAt location
  { general := .sum (rows.map (·.dailyBid))
    safe := .sum (rows.map fun r => if r.IsSafe then r.dailyBid else .integer 0) }

/-- The pools of a location as the lookup of a boost finds them: each is a sum over the boosts that
share it, and a pool that is no number counts as empty. -/
def lookupPools (t : BoostTable) (location : Cell) : Pools :=
  let rows := t.activeAt location
  Pools.orZero
    { general := .sum (rows.map (·.dailyBid))
      safe := .sum ((rows.filter (·.IsSafe)).map (·.dailyBid)) }

/-- The active boosts in the order of their names. -/
def active (t : BoostTable) : Except RepositoryError (List Boost) :=
  (t.sorted.filter (·.IsActive)).mapM fun r =>
    r.boost (.integer 1) (t.listedPools r.location)

/-- Looks up a boost, active or not. -/
def lookup (t : BoostTable) (id : String) : Except RepositoryError (Option Boost) :=
  match t.find? (.text id) with
  | none => .ok none
  | some r => (r.boost r.active (t.lookupPools r.location)).map some

end BoostTable

end Pacing.Store
