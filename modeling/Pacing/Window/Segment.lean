import Pacing.Boost
import Pacing.Cursor

/-!
# Segments: runs of views that were counted alike

Each boost keeps the runs of views that it was counted for. A segment says which buckets the views
of a run went to and which cursors the run spans, so that a view can later be taken back from
exactly where it was counted.
-/

namespace Pacing

-- Sums are those of the core library, whatever else is in scope.
attribute [local instance (high)] Zero.ofOfNat0

/-- What decides where the views of a boost are counted. -/
structure Profile where
  /-- Where the boost is shown. -/
  location : Location
  /-- Whether its views count for the safe audience too. -/
  safeForAll : Bool
deriving DecidableEq, Repr, Inhabited

namespace Profile

/-- The buckets that a view is counted in. -/
def buckets (p : Profile) : List Bucket := (audiencesFor p.safeForAll).map (Bucket.mk p.location)

/-- A view is counted once in each of its buckets. -/
theorem nodup_buckets (p : Profile) : p.buckets.Nodup := by
  obtain ⟨l, s⟩ := p
  cases l <;> cases s <;> decide

end Profile

/-- The profile under which new views of a boost are counted. -/
def Boost.profile (b : Boost) : Profile := ⟨b.location, b.safeForAll⟩

/-- A run of views of one boost, counted under one profile. -/
structure Segment where
  /-- Where the views of the run were counted. -/
  profile : Profile
  /-- The cursor of the first view of the run. -/
  first : Cursor
  /-- The cursor of the last view of the run. -/
  last : Cursor
  /-- How many views of the run are still in the window. A program keeps 64 bits of the number; a
  window that has read fewer than `2 ^ 64` views needs no more. -/
  views : Nat
deriving DecidableEq, Repr, Inhabited

namespace Segment

/-- Whether a cursor lies in the span of a segment. -/
def Spans (s : Segment) (c : Cursor) : Prop := s.first ≤ c ∧ c ≤ s.last

instance (s : Segment) (c : Cursor) : Decidable (s.Spans c) := by unfold Spans; infer_instance

/-- A run that begins with one view. -/
def single (profile : Profile) (cursor : Cursor) : Segment := ⟨profile, cursor, cursor, 1⟩

/-- A run with one more view at its end. -/
def extend (s : Segment) (cursor : Cursor) : Segment :=
  { s with last := cursor, views := s.views + 1 }

/-- The run that two runs in a row make. -/
def join (s next : Segment) : Segment := { s with last := next.last, views := s.views + next.views }

end Segment

/-- What a segment is known by when views are taken back from it. -/
structure SegmentStart where
  /-- The boost whose segment it is. -/
  boost : String
  /-- The cursor that the segment begins at. -/
  first : Cursor
deriving DecidableEq, Repr

namespace SegmentStart

instance : Ord SegmentStart := ⟨compareLex (compareOn boost) (compareOn first)⟩

instance : Std.TransOrd SegmentStart :=
  inferInstanceAs (Std.TransCmp (compareLex (compareOn boost) (compareOn first)))

instance : Std.LawfulEqOrd SegmentStart where
  eq_of_compare {a b} h := by
    obtain ⟨hboost, hfirst⟩ := compareLex_eq_eq.mp h
    obtain ⟨boost, first⟩ := a
    obtain ⟨boost', first'⟩ := b
    rw [Std.LawfulEqOrd.eq_of_compare (a := boost) (b := boost') hboost,
      Std.LawfulEqOrd.eq_of_compare (a := first) (b := first') hfirst]

end SegmentStart

/-- The views that a boost holds in the window. -/
structure Holding where
  /-- The runs of counted views, oldest first. -/
  segments : List Segment := []
  /-- Whether a view after the newest run went uncounted, so that the run cannot grow any more. -/
  isSealed : Bool := false
deriving DecidableEq, Repr, Inhabited

namespace Holding

/-- The number of views held, which a program keeps 64 bits of as it does for a segment. -/
def views (h : Holding) : Nat := (h.segments.map Segment.views).sum

/-- The profile of the newest views. -/
def profile? (h : Holding) : Option Profile := h.segments.getLast?.map Segment.profile

/-- The first segment whose span holds a cursor. -/
def segmentAt? (h : Holding) (c : Cursor) : Option Segment := h.segments.find? (·.Spans c)

/-- Adds a run. It joins the newest segment unless that one is sealed or has another profile. -/
def append (h : Holding) (run : Segment) : Holding :=
  match h.segments.getLast? with
  | some newest =>
    if h.isSealed = false ∧ newest.profile = run.profile then
      ⟨h.segments.dropLast ++ [newest.join run], false⟩
    else ⟨h.segments ++ [run], false⟩
  | none => ⟨[run], false⟩

/-- Keeps the newest segment from growing. -/
def sealOff (h : Holding) : Holding := { h with isSealed := true }

/-- Takes `n` views from the first segment that begins at `start`; a segment left without views
goes away. -/
def reduce (start : Cursor) (n : Nat) : List Segment → List Segment
  | [] => []
  | s :: rest =>
    if s.first = start then
      if s.views ≤ n then rest else { s with views := s.views - n } :: rest
    else s :: reduce start n rest

/-- Takes views back from a holding; nothing is left when no segment is. -/
def takeBack? (h : Holding) (start : Cursor) (n : Nat) : Option Holding :=
  match reduce start n h.segments with
  | [] => none
  | rest => some { h with segments := rest }

end Holding

end Pacing
