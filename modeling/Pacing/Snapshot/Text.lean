import Pacing.Json.Decode
import Pacing.Json.Printer
import Pacing.Json.Reader
import Pacing.Snapshot

/-!
# The text of a snapshot

Snapshots are written as indented JSON. Reading takes any JSON of the same meaning: fields in any
order, further members, records written as arrays. The members of a boost's entry are read as a
whole before they are understood, so there even a member without meaning must be readable.
-/

namespace Pacing

/-- The value of a cursor. -/
def Cursor.toJson (c : Cursor) : Json :=
  .record [("timestamp_ms", .int c.ts.toInt), ("seq", .int c.seq.toNat)]

/-- Reads a cursor. -/
def Cursor.ofJson? (j : Json) : Option Cursor := do
  match ← j.fields? ["timestamp_ms", "seq"] with
  | [some ts, some seq] =>
    return ⟨← ts.toInt64?, UInt32.ofNat (← seq.toNatBelow? UInt32.size)⟩
  | _ => none

/-- The value of a profile. -/
def Profile.toJson (p : Profile) : Json :=
  .record [("target_location", .text p.location.name), ("safe_for_all", .bool p.safeForAll)]

/-- Reads a profile. -/
def Profile.ofJson? (isNothing : Json → Bool) (j : Json) : Option Profile := do
  match ← j.fields? ["target_location", "safe_for_all"] with
  | [some location, some safe] =>
    return ⟨← location.toName? Location.ofName? isNothing, ← safe.toBool?⟩
  | _ => none

/-- The value of a segment. -/
def Segment.toJson (s : Segment) : Json :=
  .record [("profile", s.profile.toJson), ("first_cursor", s.first.toJson),
    ("last_cursor", s.last.toJson), ("views", .int s.views)]

/-- Reads a segment. -/
def Segment.ofJson? (isNothing : Json → Bool) (j : Json) : Option Segment := do
  match ← j.fields? ["profile", "first_cursor", "last_cursor", "views"] with
  | [some profile, some first, some last, some views] =>
    return ⟨← Profile.ofJson? isNothing profile, ← Cursor.ofJson? first, ← Cursor.ofJson? last,
      ← views.toNatBelow? UInt64.size⟩
  | _ => none

namespace Holding

/-- The members of a holding's value. -/
def jsonMembers (h : Holding) : List (String × Json) :=
  [("segments", .array (h.segments.map Segment.toJson)), ("sealed", .bool h.isSealed)]

/-- Reads a holding from its fields; it is not sealed unless it says so. -/
def ofFields? (isNothing : Json → Bool) : List (Option Json) → Option Holding
  | [some segments, isSealed] => do
    let segments ← segments.toList? (Segment.ofJson? isNothing)
    match isSealed with
    | some isSealed => return ⟨segments, ← isSealed.toBool?⟩
    | none => return ⟨segments, false⟩
  | _ => none

/-- Reads a holding that stands by itself. -/
def ofJson? (j : Json) : Option Holding := do
  ofFields? Json.isNull (← j.fields? ["segments", "sealed"])

/-- Reads a holding from its text. -/
def parse? (text : String) : Option Holding := (Json.parse? text).bind ofJson?

end Holding

namespace Snapshot

/-- The value of a bucket's total. -/
def totalToJson : Bucket × UInt64 → Json
  | (b, n) =>
    .record [("target_location", .text b.location.name), ("audience", .text b.audience.name),
      ("views", .int n.toNat)]

/-- Reads a bucket's total. -/
def totalOfJson? (j : Json) : Option (Bucket × UInt64) := do
  match ← j.fields? ["target_location", "audience", "views"] with
  | [some location, some audience, some views] =>
    return (⟨← location.toName? Location.ofName? Json.isNull,
      ← audience.toName? Audience.ofName? Json.isNull⟩,
      UInt64.ofNat (← views.toNatBelow? UInt64.size))
  | _ => none

/-- The value of a boost's entry: its id beside the members of its holding. -/
def entryToJson : String × Holding → Json
  | (id, h) => .record (("boost_id", .text id) :: h.jsonMembers)

/-- How deep the members of a boost's entry may be nested; with the three containers around them
that makes 127 levels. -/
def entryDepth : Nat := 124

/-- Reads a boost's entry, which must be an object. -/
def entryOfJson? (j : Json) : Option (String × Holding) := do
  let members ← j.members?
  let id ← (← Json.field? members "boost_id").bind Json.toText?
  let rest := members.filter (·.1 ≠ "boost_id")
  if rest.all fun (_, value) => value.isReadable entryDepth then
    return (id, ← Holding.ofFields? Json.isNullOrEmpty
      (← ["segments", "sealed"].mapM (Json.field? rest)))
  else none

/-- The value of a watermark. -/
def watermarkToJson (c : Option Cursor) : Json := c.elim .null Cursor.toJson

/-- Reads a watermark; none is set when the field is absent. -/
def watermarkOfJson? : Option Json → Option (Option Cursor)
  | none => some none
  | some j => j.toOption? Cursor.ofJson?

/-- The value of a snapshot. -/
def toJson (s : Snapshot) : Json :=
  .record [("window_secs", .int s.seconds.toInt), ("min_cursor", watermarkToJson s.low),
    ("max_cursor", watermarkToJson s.high), ("total_views", .array (s.totals.map totalToJson)),
    ("views_by_boost", .array (s.holdings.map entryToJson)), ("saved_at", .int s.savedAt.toInt)]

/-- The names of a snapshot's fields. -/
def fieldNames : List String :=
  ["window_secs", "min_cursor", "max_cursor", "total_views", "views_by_boost", "saved_at"]

/-- Reads a snapshot. -/
def ofJson? (j : Json) : Option Snapshot := do
  match ← j.fields? fieldNames with
  | [some seconds, low, high, some totals, some holdings, some savedAt] =>
    return {
      seconds := ← seconds.toInt64?
      low := ← watermarkOfJson? low
      high := ← watermarkOfJson? high
      totals := ← totals.toList? totalOfJson?
      holdings := ← holdings.toList? entryOfJson?
      savedAt := ← savedAt.toInt64? }
  | _ => none

/-- The text of a snapshot. -/
def render (s : Snapshot) : String := s.toJson.pretty

/-- Reads a snapshot from its text. -/
def parse? (text : String) : Option Snapshot := (Json.parse? text).bind ofJson?

end Snapshot

end Pacing
