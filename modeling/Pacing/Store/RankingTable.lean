import Pacing.Json.Decode
import Pacing.Json.Printer
import Pacing.Json.Reader
import Pacing.Repository
import Pacing.Store.Affinity
import Pacing.Store.Column
import Pacing.Store.NamedRows
import Std.Data.ExtTreeMap

/-!
# The table of rankings

A row holds the latest ranking of a boost: the rank for each audience in a column of its own, and
all ranks once more as the text of an object with a number for each audience. Rankings are read
back from the text.
-/

namespace Pacing.Store

/-- A row of the table of rankings. -/
structure RankingRow where
  /-- The name of the boost. -/
  guid : Cell
  /-- The columns of the ranks. -/
  ranks : PerAudience Float := {}
  /-- The ranks as text. -/
  text : Cell
deriving DecidableEq, Repr, Inhabited

namespace RankingRow

/-- What the column of a rank gives back for it: nothing for NaN, and zero without a sign. -/
def columnRank (rank : Float) : Option Float :=
  match Affinity.real.store (.ofFloat rank) with
  | .real x => some x
  | _ => none

/-- The text of the ranks for some audiences. Ranks that are no finite number are null. -/
def ranksText (ranks : PerAudience Float) : String :=
  (Json.record (ranks.toList.map fun (a, rank) => (a.name, Json.float rank))).compact

/-- The row of a ranking. -/
def ofRanking (r : Ranking) : RankingRow :=
  { guid := .text r.boost
    ranks := ⟨r.ranks.general.bind columnRank, r.ranks.safe.bind columnRank⟩
    text := .text (ranksText r.ranks) }

/-- Reads an object of numbers. Of a repeated key the last number counts. -/
def numbers? (text : String) : Option (Std.ExtTreeMap String Float) := do
  let json ← Json.parse? text
  let members ← json.members?
  let numbers ← members.mapM fun (key, value) => value.toFloat?.map fun x => (key, x)
  return numbers.foldl (fun map (key, x) => map.insert key x) ∅

/-- Takes the number of one audience into the ranks. -/
def withRank (ranks : PerAudience Float) (entry : String × Float) :
    Except RepositoryError (PerAudience Float) :=
  match Audience.ofName? entry.1 with
  | some a => .ok (ranks.set a entry.2)
  | none => .error (.unknownAudience entry.1)

/-- Reads the ranks from their text, key by key in order. -/
def readRanks (text : String) : Except RepositoryError (PerAudience Float) :=
  match numbers? text with
  | some numbers => numbers.toList.foldlM withRank {}
  | none => .error .unreadableRanks

end RankingRow

/-- The table of rankings. -/
abbrev RankingTable := NamedRows RankingRow RankingRow.guid

namespace RankingTable

/-- Adds a row with nothing in the columns of the ranks, as its columns store it. -/
def put (t : RankingTable) (guid text : Cell) : Except Error RankingTable :=
  let r : RankingRow := { guid := Affinity.text.store guid, text := Affinity.text.store text }
  match missing? [("boost_rankings.ranks_json", r.text)] with
  | some e => .error e
  | none =>
    match t.insert? r with
    | some t => .ok t
    | none => .error (.unique ["boost_rankings.guid"])

/-- Stores a ranking in place of an earlier one of the same boost. -/
def store (t : RankingTable) (ranking : Ranking) : RankingTable := t.upsert (.ofRanking ranking)

/-- Looks up the latest ranking of a boost. -/
def lookup (t : RankingTable) (id : String) : Except RepositoryError (Option Ranking) :=
  match t.find? (.text id) with
  | none => .ok none
  | some r => do
    let text ← (Column.text ⟨0, "ranks_json"⟩ r.text).mapError .store
    let ranks ← RankingRow.readRanks text
    return some ⟨id, ranks⟩

end RankingTable

end Pacing.Store
