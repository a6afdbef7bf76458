import Pacing.Store.BoostTable
import Pacing.Store.RankingTable
import Pacing.Store.ViewReader

/-!
# The database

Three tables hold the views, the boosts and the rankings. Any of them can be missing: whatever
needs it then fails. A batch of views is written as a whole or not at all.
-/

namespace Pacing.Store

/-- The name of a table. -/
inductive Table where
  | views
  | boosts
  | rankings
deriving DecidableEq, Repr

namespace Table

/-- The name as errors give it. -/
def name : Table → String
  | views => "views"
  | boosts => "boosts"
  | rankings => "boost_rankings"

/-- The table of a name. -/
def ofName? (name : String) : Option Table :=
  [views, boosts, rankings].find? (·.name = name)

end Table

/-- The tables, as far as they exist. -/
structure Database where
  /-- The views. -/
  views : Option ViewTable := none
  /-- The boosts. -/
  boosts : Option BoostTable := none
  /-- The rankings. -/
  rankings : Option RankingTable := none

/-- A schema that could not be applied. -/
inductive MigrationError where
  /-- The directory of the schema does not exist. -/
  | noDirectory (path : String)
deriving DecidableEq, Repr

/-- The wording of a schema that could not be applied. -/
def MigrationError.message : MigrationError → String
  | noDirectory path => s!"Schema directory not found: {path}"

/-- How a connection to the database is tuned. -/
structure Tuning where
  /-- How changes reach the file. -/
  journalMode : String
  /-- How often writing waits for the disk: 1 is at critical moments only. -/
  synchronous : Int
  /-- Where temporary tables are kept: 2 is in memory. -/
  tempStore : Int
  /-- How many bytes of the file are mapped into memory. -/
  mappedBytes : Int
  /-- The size of the cache; a negative number is in units of 1024 bytes. -/
  cacheSize : Int
  /-- After how many pages the journal is written back. -/
  checkpointPages : Int
deriving DecidableEq, Repr

/-- The tuning for a log that is appended to. -/
def Tuning.ofLog : Tuning :=
  { journalMode := "wal", synchronous := 1, tempStore := 2, mappedBytes := 268435456
    cacheSize := -64000, checkpointPages := 1000 }

/-- A table that an access needs. -/
def need {α : Type} (name : Table) (table : Option α) : Except Error α :=
  match table with
  | some t => .ok t
  | none => .error (.noSuchTable name.name)

namespace Database

/-- Opens the database in a directory, which must exist; a new one has no tables. -/
def openIn (directoryExists : Bool) : Except Error Database :=
  if directoryExists then .ok {} else .error .cannotOpen

/-- Creates the tables that are missing. -/
def migrate (db : Database) : Database :=
  { views := some (db.views.getD {})
    boosts := some (db.boosts.getD {})
    rankings := some (db.rankings.getD {}) }

/-- Removes a table with its rows. -/
def drop (db : Database) : Table → Database
  | .views => { db with views := none }
  | .boosts => { db with boosts := none }
  | .rankings => { db with rankings := none }

/-- The reader of the views, with pages of a given size. -/
def reader (db : Database) (pageSize : UInt64) : ViewReader :=
  ({ table := db.views } : ViewReader).withPageSize pageSize

/-- Adds a row of any cells to the views. -/
def putView (db : Database) (r : ViewRow) : Except Error Database := do
  let t ← (← need .views db.views).put r
  return { db with views := some t }

/-- Adds a row of any cells to the boosts. -/
def putBoost (db : Database) (r : BoostRow) : Except Error Database := do
  let t ← (← need .boosts db.boosts).put r
  return { db with boosts := some t }

/-- Adds a row of any cells to the rankings. -/
def putRanking (db : Database) (guid text : Cell) : Except Error Database := do
  let t ← (← need .rankings db.rankings).put guid text
  return { db with rankings := some t }

/-- Writes one view. Its sequence number must not be one that only boundaries have. -/
def append (db : Database) (v : View) : Except SourceError Database :=
  if v.cursor.isBoundary then .error (.reservedSequence v.cursor)
  else
    match (need .views db.views).bind (·.insert (.ofView v)) with
    | .ok t => .ok { db with views := some t }
    | .error e => .error (.store e)

/-- Writes several views, all or none. -/
def appendAll (db : Database) (views : List View) : Except SourceError Database :=
  views.foldlM append db

/-- Records a view under the next free sequence number of its timestamp. -/
def record (db : Database) (ts : Int64) (tag : String) :
    Except SourceError (Database × Cursor) := do
  let last ← ((need .views db.views).bind (·.lastSequence (.ofTimestamp ts) ts)).mapError .store
  let next := last.getD 0 + 1
  if 0 ≤ next ∧ next < UInt32.size then
    let cursor : Cursor := ⟨ts, UInt32.ofNat next.toNat⟩
    return (← db.append (.filed cursor tag), cursor)
  else .error (.sequenceOverflow ts)

/-- Puts a boost in place of an earlier one of its name. -/
def upsert (db : Database) (id : String) (location : Location) (safeForAll : Bool) (bid : Float)
    (active : Bool) : Except RepositoryError Database := do
  let t ← ((need .boosts db.boosts).bind
    (·.set id location safeForAll bid active)).mapError .store
  return { db with boosts := some t }

/-- The active boosts in the order of their names. -/
def active (db : Database) : Except RepositoryError (List Boost) :=
  ((need .boosts db.boosts).mapError .store).bind (·.active)

/-- Looks up a boost, active or not. -/
def lookup (db : Database) (id : String) : Except RepositoryError (Option Boost) :=
  ((need .boosts db.boosts).mapError .store).bind (·.lookup id)

/-- Stores a ranking in place of an earlier one of the same boost. -/
def storeRanking (db : Database) (ranking : Ranking) : Except RepositoryError Database :=
  ((need .rankings db.rankings).mapError .store).map fun t =>
    { db with rankings := some (t.store ranking) }

/-- Looks up the latest ranking of a boost. -/
def ranking (db : Database) (id : String) : Except RepositoryError (Option Ranking) :=
  ((need .rankings db.rankings).mapError .store).bind (·.lookup id)

/-- The rows of the table of rankings in the order of the boosts' names. -/
def rankingRows (db : Database) : Except RepositoryError (List RankingRow) :=
  ((need .rankings db.rankings).mapError .store).map (·.sorted)

instance : BoostRepository Database := ⟨active, lookup, storeRanking⟩

end Database

end Pacing.Store
