import Pacing.Proofs.AffordedTakeBacks

/-!
# A window that can go back to its snapshots

A window is captured from time to time, and may be rebuilt from any snapshot captured on its way.
What it did after that snapshot is then undone, but what was pushed to the log since is still there.
A log that changes only past the high watermark bears out the window. It bears out a snapshot too,
as long as up to the high watermark of the snapshot it is the log that was there at the capture. Then
no take-back takes away more than it finds.

The condition on snapshots does not follow from the one on pushes. A window that has gone back to an
older snapshot lets views in that lie behind a newer one, and takes back what it never counted when
it is rebuilt from that.
-/

namespace Pacing

open HonestSource (held)

namespace WindowState

/-- A state that has not begun, or whose accounts are those of some readings that the log still
holds. -/
def BorneOut (state : WindowState) (logged : List View) : Prop :=
  state = {} ∨ ∃ readings start low high, Conserved state readings logged start low high

namespace BorneOut

variable {state : WindowState} {logged logged' : List View}

/-- A window that begins from a state that is borne out has accounts that conserve what was
logged. -/
theorem begin {w : Window} (h : w.state.BorneOut logged) (now : Int64) :
    ∃ readings start low high, Conserved (w.begin now) readings logged start low high := by
  rcases h with hstate | ⟨readings, start, low, high, h⟩
  · exact ⟨_, _, _, _, Conserved.begin w hstate logged now⟩
  · rw [h.accounts.begin_eq]
    exact ⟨readings, start, low, high, h⟩

/-- A log that changes only past the high watermark bears out what it bore out before. -/
theorem settled (h : state.BorneOut logged) (hsettled : ∀ high ∈ state.high,
    logged'.filter (·.cursor ≤ high) = logged.filter (·.cursor ≤ high)) :
    state.BorneOut logged' := by
  rcases h with hstate | ⟨readings, start, low, high, h⟩
  · exact .inl hstate
  · exact .inr ⟨readings, start, low, high, h.settled (hsettled high h.accounts.high_eq)⟩

/-- The state is rebuilt from its snapshot, and the log bears it out again. -/
theorem rebuild (h : state.BorneOut logged) (seconds savedAt : Int64) :
    ∃ restored, (Snapshot.capture state seconds savedAt).toState = .ok restored ∧
      restored.BorneOut logged := by
  rcases h with rfl | ⟨readings, start, low, high, h⟩
  · exact ⟨{}, Snapshot.toState_capture_empty seconds savedAt, .inl rfl⟩
  · obtain ⟨restored, hrestored, hagrees⟩ :=
      Snapshot.toState_capture h.accounts.tidy seconds savedAt
    exact ⟨restored, hrestored, .inr ⟨readings, start, low, high, h.agrees hagrees⟩⟩

end BorneOut

end WindowState

/-- A snapshot, and the log as it was when the snapshot was captured. -/
structure Checkpoint (σ : Type) where
  /-- The snapshot. -/
  snapshot : Snapshot
  /-- The log of views. -/
  log : σ

/-- A window over its log, with the snapshots that were captured, newest first. -/
structure Checkpointed (σ : Type) where
  /-- The window. -/
  window : Window
  /-- The log of views. -/
  log : σ
  /-- The snapshots captured so far. -/
  saved : List (Checkpoint σ) := []

namespace Checkpointed

/-- What happens to a window that can go back. -/
inductive Step (σ : Type) where
  /-- The log is another from now on. -/
  | log (log : σ)
  /-- The window is moved to a time, while the repository answers in a given way. -/
  | advance (now : Int64) (lookup : Lookup)
  /-- The window is captured. -/
  | capture (savedAt : Int64)
  /-- The window is rebuilt, with a given length in seconds, from the newest snapshot but for a
  number of newer ones. -/
  | restore (newer : Nat) (seconds : Int64)

/-- An empty window. -/
def start {σ : Type} (seconds : Int64) (log : σ) : Checkpointed σ := { window := { seconds }, log }

variable {σ : Type} [ViewSource σ]

/-- The window after a step. It stays as it is where there is no snapshot to go back to. -/
def step (c : Checkpointed σ) : Step σ → Checkpointed σ
  | .log log => { c with log }
  | .advance now lookup =>
    let done := c.window.advance now c.log lookup
    { c with window := done.window, log := done.log }
  | .capture savedAt =>
    let snapshot := .capture c.window.state c.window.seconds savedAt
    { c with saved := ⟨snapshot, c.log⟩ :: c.saved }
  | .restore newer seconds =>
    match c.saved[newer]? with
    | none => c
    | some saved =>
      match saved.snapshot.toState with
      | .ok state => { c with window := { seconds, state } }
      | .error _ => c

/-- The take-back that a step commits, if any, finds everything that it takes away. -/
def Affords (c : Checkpointed σ) : Step σ → Prop
  | .log _ => True
  | .advance now lookup =>
    let ingested := Window.ingest (c.window.begin now) now c.log lookup
    ∀ s ∈ (Window.scanTakeBack ingested.state (c.window.startAt now) ingested.log).stage,
      ingested.state.Affords s ∧ ingested.state.NeverClamps s
  | .capture _ => True
  | .restore _ _ => True

variable [HonestSource σ]

/-- A step that changes the log only past the high watermark, and leaves fewer than `2 ^ 64` views
in it. -/
def PushesPast (c : Checkpointed σ) : Step σ → Prop
  | .log log => (∀ high ∈ c.window.state.high,
      (held log).filter (·.cursor ≤ high) = (held c.log).filter (·.cursor ≤ high)) ∧
      (held log).length < 2 ^ 64
  | .advance _ _ => True
  | .capture _ => True
  | .restore _ _ => True

/-- A step that goes back only to a snapshot up to whose high watermark the log is as it was at the
capture. -/
def FindsIntact (c : Checkpointed σ) : Step σ → Prop
  | .log _ => True
  | .advance _ _ => True
  | .capture _ => True
  | .restore newer _ => ∀ saved ∈ c.saved[newer]?, ∀ high ∈ saved.snapshot.high,
      (held c.log).filter (·.cursor ≤ high) = (held saved.log).filter (·.cursor ≤ high)

instance (c : Checkpointed σ) : (a : Step σ) → Decidable (c.PushesPast a)
  | .log log => inferInstanceAs (Decidable ((∀ high ∈ c.window.state.high,
      (held log).filter (·.cursor ≤ high) = (held c.log).filter (·.cursor ≤ high)) ∧
      (held log).length < 2 ^ 64))
  | .advance _ _ => isTrue trivial
  | .capture _ => isTrue trivial
  | .restore _ _ => isTrue trivial

instance (c : Checkpointed σ) : (a : Step σ) → Decidable (c.FindsIntact a)
  | .log _ => isTrue trivial
  | .advance _ _ => isTrue trivial
  | .capture _ => isTrue trivial
  | .restore newer _ => inferInstanceAs (Decidable (∀ saved ∈ c.saved[newer]?,
      ∀ high ∈ saved.snapshot.high,
        (held c.log).filter (·.cursor ≤ high) = (held saved.log).filter (·.cursor ≤ high)))

/-- The log bears out the window, and the log of each capture bears out the snapshot. -/
structure Sound (c : Checkpointed σ) : Prop where
  fits : (held c.log).length < 2 ^ 64
  window : c.window.state.BorneOut (held c.log)
  saved : ∀ s ∈ c.saved, ∃ state, s.snapshot.toState = .ok state ∧ state.BorneOut (held s.log)

namespace Sound

variable {c : Checkpointed σ}

/-- A log that changes past the high watermark goes on bearing out the window. -/
theorem log (h : c.Sound) {log : σ} (hpast : c.PushesPast (.log log)) :
    (c.step (.log log)).Sound where
  fits := hpast.2
  window := h.window.settled hpast.1
  saved := h.saved

/-- An advance takes back what it finds, and the log bears out what it leaves. -/
theorem advance (h : c.Sound) (now : Int64) (lookup : Lookup) :
    (c.step (.advance now lookup)).Sound ∧ c.Affords (.advance now lookup) := by
  obtain ⟨readings, start, low, high, hbegun⟩ := h.window.begin now
  have hingested := hbegun.ingest now lookup
  have hpruned := hingested.prune (c.window.startAt now)
  have hlog : held (c.step (.advance now lookup)).log = held c.log :=
    Window.held_advance c.window now c.log lookup
  refine ⟨⟨hlog ▸ h.fits, .inr ⟨_, _, _, _, hpruned⟩, h.saved⟩, fun s hs => ?_⟩
  have hsize := hingested.length_le
  rw [(Window.ingest_spec (c.window.begin now) now c.log lookup).1] at hsize
  have hafford := hingested.accounts.affords (Nat.lt_of_le_of_lt hsize h.fits)
    (Window.sumsUp_of_staged hs) (hingested.expires (c.window.startAt now))
  exact ⟨hafford, hafford.neverClamps hingested.accounts.distinct⟩

/-- A snapshot that is captured is borne out by the log of its capture. -/
theorem capture (h : c.Sound) (savedAt : Int64) : (c.step (.capture savedAt)).Sound where
  fits := h.fits
  window := h.window
  saved := List.forall_mem_cons.mpr ⟨h.window.rebuild c.window.seconds savedAt, h.saved⟩

/-- A snapshot up to whose high watermark the log is as it was is borne out by the log as it is. -/
theorem restore (h : c.Sound) {newer : Nat} {seconds : Int64}
    (hintact : c.FindsIntact (.restore newer seconds)) :
    (c.step (.restore newer seconds)).Sound := by
  cases hsaved : c.saved[newer]? with
  | none => simpa only [step, hsaved] using h
  | some saved =>
    obtain ⟨state, hstate, hborne⟩ := h.saved saved (List.mem_of_getElem? hsaved)
    have hnow : state.BorneOut (held c.log) := by
      refine hborne.settled fun high hhigh => ?_
      rw [Snapshot.high_of_toState hstate] at hhigh
      exact hintact saved hsaved high hhigh
    simp only [step, hsaved, hstate]
    exact ⟨h.fits, hnow, h.saved⟩

/-- A step keeps the window and its snapshots borne out, and takes back no more than it finds. -/
theorem step (h : c.Sound) {a : Step σ} (hpast : c.PushesPast a) (hintact : c.FindsIntact a) :
    (c.step a).Sound ∧ c.Affords a := by
  cases a with
  | log log => exact ⟨h.log hpast, trivial⟩
  | advance now lookup => exact h.advance now lookup
  | capture savedAt => exact ⟨h.capture savedAt, trivial⟩
  | restore newer seconds => exact ⟨h.restore hintact, trivial⟩

end Sound

/-- Along every run in which the log changes only past the high watermark, and the window goes back
only to snapshots up to whose high watermark the log is as it was at the capture, every take-back
that is committed finds in each bucket and each segment at least what it takes from there, before
the commit and at each point of it. -/
theorem affords_along {seconds : Int64} {log : σ} {steps : List (Step σ)}
    (hlog : (held log).length < 2 ^ 64)
    (hpast : Along step PushesPast (start seconds log) steps)
    (hintact : Along step FindsIntact (start seconds log) steps) :
    Along step Affords (start seconds log) steps := by
  have hstart : (start seconds log).Sound := ⟨hlog, .inl rfl, by simp [start]⟩
  have hboth := Along.and_iff.mpr ⟨hpast, hintact⟩
  exact hboth.derives (fun _ _ ha h => h.step ha.1 ha.2) hstart

/-- A window of one second counts and takes back views of two boosts. It is rebuilt from the snapshot
in the middle of that, counts and takes back the same views again with one more, and is then rebuilt
from the newer snapshot of the two. -/
def thereAndBack : List (Step Memory.Log) :=
  let log := Memory.Log.filing [.filed ⟨1, 1⟩ "urn:boost:newsfeed:a",
    .filed ⟨2, 1⟩ "urn:boost:newsfeed:b", .filed ⟨3, 1⟩ "urn:boost:newsfeed:a"]
  [.advance 0 inNewsfeed, .log log, .advance 3 inNewsfeed, .capture 0,
    .advance 1003 fun _ => .ok none, .capture 1, .restore 1 1,
    .log (log.pushAll [.filed ⟨4, 1⟩ "urn:boost:newsfeed:b"]), .advance 1004 inNewsfeed,
    .restore 0 1, .advance 1005 inNewsfeed]

/-- The run there and back pushes past the high watermark and finds its snapshots intact, so no
take-back of it takes too much. -/
theorem affords_along_thereAndBack :
    Along step PushesPast (start 1 ({} : Memory.Log)) thereAndBack ∧
      Along step FindsIntact (start 1 ({} : Memory.Log)) thereAndBack ∧
      Along step Affords (start 1 ({} : Memory.Log)) thereAndBack := by
  have hpast : Along step PushesPast (start 1 ({} : Memory.Log)) thereAndBack := by decide
  have hintact : Along step FindsIntact (start 1 ({} : Memory.Log)) thereAndBack := by decide
  exact ⟨hpast, hintact, affords_along (by decide) hpast hintact⟩

/-- A window of one second is captured empty and again after two views, goes back to the first
snapshot, behind which a view is pushed, and is rebuilt from the second one. -/
def crossed : List (Step Memory.Log) :=
  let log := Memory.Log.filing [.filed ⟨1, 1⟩ "urn:boost:newsfeed:a",
    .filed ⟨3, 1⟩ "urn:boost:newsfeed:a"]
  [.advance 0 inNewsfeed, .capture 0, .log log, .advance 10 inNewsfeed, .capture 1, .restore 1 1,
    .log (log.pushAll [.filed ⟨2, 1⟩ "urn:boost:newsfeed:a"]), .restore 0 1]

/-- Every push of that run lies past the high watermark. Still the next take-back is to take three
views from a bucket and from a segment that have two. -/
theorem not_affords_along_crossed :
    let c := crossed.foldl step (start 1 ({} : Memory.Log))
    let ingested := Window.ingest (c.window.begin 1004) 1004 c.log inNewsfeed
    let stage := (Window.scanTakeBack ingested.state (c.window.startAt 1004) ingested.log).stage
    Along step PushesPast (start 1 ({} : Memory.Log))
        (crossed ++ [.advance 1004 inNewsfeed]) ∧
      stage.bind (·.lost[(⟨.newsfeed, .general⟩ : Bucket)]?) = some 3 ∧
      ingested.state.total ⟨.newsfeed, .general⟩ = 2 ∧
      stage.bind (·.removed[(⟨"a", ⟨1, 1⟩⟩ : SegmentStart)]?) = some 3 ∧
      (ingested.state.holdings["a"]?.map (·.segments)) =
        some [⟨⟨.newsfeed, false⟩, ⟨1, 1⟩, ⟨3, 1⟩, 2⟩] ∧
      ¬Along step Affords (start 1 ({} : Memory.Log))
        (crossed ++ [.advance 1004 inNewsfeed]) := by
  intro c ingested stage
  have hpast : Along step PushesPast (start 1 ({} : Memory.Log))
      (crossed ++ [.advance 1004 inNewsfeed]) := by decide +kernel
  have hlost : stage.bind (·.lost[(⟨.newsfeed, .general⟩ : Bucket)]?) = some 3 := by decide +kernel
  have htotal : ingested.state.total ⟨.newsfeed, .general⟩ = 2 := by decide +kernel
  refine ⟨hpast, hlost, htotal, by decide +kernel, by decide +kernel, fun hafford => ?_⟩
  obtain ⟨s, hs, hthree⟩ := Option.bind_eq_some_iff.mp hlost
  have hlast := (Along.append_iff.mp hafford).2.1 s hs
  have hle := hlast.1.bucket hthree
  rw [htotal] at hle
  exact absurd hle (by decide)

end Checkpointed

end Pacing
