import Pacing.Numeral
import Pacing.Text.Blank

/-!
# Settings

Settings come from named texts. A number that is missing, unreadable or out of range falls back to
its default.
-/

namespace Pacing

/-- The settings of the ranking service. -/
structure Settings where
  /-- Where the database is. -/
  dbPath : String
  /-- Where the files of the schema are. -/
  schemaDir : String
  /-- The length of the window in seconds. -/
  windowSeconds : Int64
  /-- The time between cycles in milliseconds. -/
  cycleIntervalMillis : UInt64
  /-- The number of views read from the database at a time. -/
  pageSize : UInt64
  /-- Where the window is saved, if it is. -/
  snapshotPath : Option String
deriving DecidableEq, Repr

namespace Settings

/-- The length of a window in seconds unless another is set. -/
def defaultWindowSeconds : Int64 := 3600

/-- The length in seconds of the longest window: 30 days. -/
def maxWindowSeconds : Int64 := 2592000

/-- The number of views read at a time unless another is set. -/
def defaultPageSize : UInt64 := 2500

/-- The length of the window that a text sets. -/
def windowSeconds? (text : String) : Option Int64 :=
  (Numeral.int64? text.toList).filter fun n => 1 ≤ n && n ≤ maxWindowSeconds

/-- A positive number that a text sets. -/
def positive? (text : String) : Option UInt64 :=
  (Numeral.uint64? text.toList).filter fun n => 0 < n

/-- The settings that named texts make. -/
def ofEnv (env : String → Option String) : Settings :=
  { dbPath := (env "BOOST_RANKING_DB_PATH").getD "data/boost_ranking.db"
    schemaDir := (env "BOOST_RANKING_SCHEMA_DIR").getD "sql"
    windowSeconds :=
      ((env "RANKING_WINDOW_SECS").bind windowSeconds?).getD defaultWindowSeconds
    cycleIntervalMillis := ((env "RANKING_CYCLE_INTERVAL_MS").bind positive?).getD 5000
    pageSize := ((env "VIEWS_PAGE_SIZE").bind positive?).getD defaultPageSize
    snapshotPath :=
      match env "RANKING_SNAPSHOT_PATH" with
      | some path => if Text.isAllBlank path then none else some path
      | none => some "data/ranking_window.json" }

end Settings

end Pacing
