import Pacing.Snapshot.Text

/-!
# Saved windows

Saving a window writes its snapshot over an earlier one. Loading finds a window only when a
snapshot is there and was taken of a window of the same length.
-/

namespace Pacing

/-- What is found where a snapshot is kept. -/
inductive SnapshotFile where
  /-- Nothing. -/
  | absent
  /-- Something that cannot be read, such as a directory. -/
  | unreadable
  /-- A file with these bytes. -/
  | bytes (content : ByteArray)

namespace SnapshotFile

/-- Why a snapshot could not be loaded. -/
inductive LoadError where
  /-- The file could not be read as text. -/
  | io
  /-- The text is no snapshot. -/
  | json
  /-- The snapshot contradicts itself. -/
  | inconsistent (cause : Snapshot.Inconsistency)
deriving DecidableEq, Repr

/-- The file of a text. -/
def ofText (text : String) : SnapshotFile := .bytes text.toUTF8

/-- Saves a window. -/
def save (state : WindowState) (seconds savedAt : Int64) : SnapshotFile :=
  .ofText (Snapshot.capture state seconds savedAt).render

/-- Loads the state of a window of the given length. Whether the file is text is settled first,
then whether the text is a snapshot, whether its window has the length wanted, and whether it is
consistent. -/
def load (file : SnapshotFile) (seconds : Int64) : Except LoadError (Option WindowState) :=
  match file with
  | absent => .ok none
  | unreadable => .error .io
  | bytes content =>
    match String.fromUTF8? content with
    | none => .error .io
    | some text =>
      match Snapshot.parse? text with
      | none => .error .json
      | some s =>
        if s.seconds = seconds then
          match s.toState with
          | .ok state => .ok (some state)
          | .error cause => .error (.inconsistent cause)
        else .ok none

end SnapshotFile

end Pacing
