import Pacing.Proofs.PagedScans
import Pacing.Proofs.PhaseSemantics

/-!
# Windows over a table

An advance asks its log for two ranges, which lie between the watermarks and the ends of the window.
While all of these are times of the calendar, a reader of a table answers as a log in memory of the
same views does, and the watermarks stay in the calendar. So a window over the table cannot be told
from one over the log in memory, and what is proved of the one holds of the other.
-/

namespace Pacing

namespace Window

variable {σ τ ι : Type}

/-- Two scans have staged, reported and asked for the same, each from a log of its own. -/
structure Scanned.Alike (done : Scanned σ ι) (done' : Scanned τ ι) : Prop where
  stage_eq : done'.stage = done.stage
  result_eq : done'.result = done.result
  asked_eq : done'.asked = done.asked

/-- Two scans leave the same state, each with a log of its own, and report the same. -/
structure ScanOutcome.Alike (done : ScanOutcome σ) (done' : ScanOutcome τ) : Prop where
  state_eq : done'.state = done.state
  result_eq : done'.result = done.result
  asked_eq : done'.asked = done.asked

/-- Scans that have staged the same leave the same when they are committed. -/
theorem Scanned.Alike.commitBy {done : Scanned σ ι} {done' : Scanned τ ι} (h : done.Alike done')
    (commit : WindowState → ι → WindowState) (state : WindowState) :
    (done.commitBy commit state).Alike (done'.commitBy commit state) where
  state_eq := by rw [Scanned.commitBy, Scanned.commitBy, h.stage_eq]
  result_eq := h.result_eq
  asked_eq := h.asked_eq

/-- Two advances cannot be told apart, each over a log of its own. -/
structure Advance.Alike (done : Advance σ) (done' : Advance τ) : Prop where
  window_eq : done'.window = done.window
  ingest_eq : done'.ingest = done.ingest
  prune_eq : done'.prune = done.prune
  asked_eq : done'.asked = done.asked

variable [ViewSource σ] [ViewSource τ] {state : WindowState} {now start : Int64} {log : σ} {log' : τ}
  {lookup : Lookup}

/-- Two logs answer a range alike. -/
def AnswerAlike (log : σ) (log' : τ) (range : CursorRange) : Prop :=
  (ViewSource.query log' range).1 = (ViewSource.query log range).1

/-- Logs that answer alike give one answer, after which each is left in a state of its own. -/
theorem AnswerAlike.exists_answer {range : CursorRange} (h : AnswerAlike log log' range) :
    ∃ answer after after', ViewSource.query log range = (answer, after) ∧
      ViewSource.query log' range = (answer, after') :=
  ⟨_, _, _, rfl, Prod.ext h rfl⟩

/-- What a scan of new views stages depends on what the log answers alone. -/
theorem scanIntake_alike (h : ∀ high ∈ state.high, AnswerAlike log log' (Intake.range high now)) :
    (scanIntake state now log lookup).Alike (scanIntake state now log' lookup) := by
  unfold scanIntake
  cases hhigh : state.high with
  | none => exact ⟨rfl, rfl, rfl⟩
  | some high =>
    obtain ⟨answer, after, after', hquery, hquery'⟩ := (h high hhigh).exists_answer
    dsimp only
    split
    · exact ⟨rfl, rfl, rfl⟩
    · rw [hquery, hquery']
      cases answer with
      | error e => exact ⟨rfl, rfl, rfl⟩
      | ok scan =>
        dsimp only
        cases readScan .ingest (Intake.note lookup) {} scan with
        | mk s failure => cases failure <;> exact ⟨rfl, rfl, rfl⟩

/-- What a scan of expired views stages depends on what the log answers alone. -/
theorem scanTakeBack_alike (h : ∀ low ∈ state.low, ∀ high ∈ state.high,
      AnswerAlike log log' (TakeBack.range low high start)) :
    (scanTakeBack state start log).Alike (scanTakeBack state start log') := by
  unfold scanTakeBack
  cases hlow : state.low with
  | none => exact ⟨rfl, rfl, rfl⟩
  | some low =>
    cases hhigh : state.high with
    | none => exact ⟨rfl, rfl, rfl⟩
    | some high =>
      obtain ⟨answer, after, after', hquery, hquery'⟩ := (h low hlow high hhigh).exists_answer
      dsimp only
      split
      · exact ⟨rfl, rfl, rfl⟩
      · rw [hquery, hquery']
        cases answer with
        | error e => exact ⟨rfl, rfl, rfl⟩
        | ok scan =>
          dsimp only
          cases readScan .prune (TakeBack.note state) {} scan with
          | mk s failure => cases failure <;> exact ⟨rfl, rfl, rfl⟩

end Window

/-- The watermarks of a window are times of the calendar. -/
structure WindowState.InCalendar (state : WindowState) : Prop where
  low : ∀ c ∈ state.low, Day.InCalendar c.ts
  high : ∀ c ∈ state.high, Day.InCalendar c.ts

namespace Store

/-- A reader has the views of a log in memory that is not to break off, all of them under the days of
their timestamps, and its pages fit into memory. -/
structure ViewReader.Mirrors (reader : ViewReader) (log : Memory.Log) : Prop where
  rows_eq : reader.table.map (·.rows) = some (log.views.map ViewRow.ofView)
  filed : OnTheirDays log.views
  fits : PageFits reader.pageSize
  unbroken : log.failAfter = none

namespace ViewReader.Mirrors

variable {reader : ViewReader} {log : Memory.Log} {state : WindowState} {now start : Int64}
  {low high : Cursor} {lookup : Lookup}

/-- Between times of the calendar the reader answers what the log in memory answers. -/
theorem answerAlike (h : reader.Mirrors log) {range : CursorRange}
    (hlow : Readable log.views range.low) (hhigh : Readable log.views range.high) :
    Window.AnswerAlike reader log range := by
  obtain ⟨t, htable, hrows⟩ := Option.map_eq_some_iff.mp h.rows_eq
  have hreader := query_eq_held htable hrows log.ordered h.filed h.fits hlow hhigh
  rw [Window.AnswerAlike, hreader]
  simp only [ViewSource.query, Memory.Log.query, h.unbroken]
  rfl

/-- A bound at a time of the calendar can be read from. -/
private theorem readable_of_cursor {views : List View} {b : Bound} {c : Cursor}
    (hb : b.cursor? = some c) (hc : Day.InCalendar c.ts) : Readable views b := by
  refine ⟨fun c' hc' => ?_, fun hunbounded => ?_⟩
  · rw [Option.some.inj (hc'.symm.trans hb)]
    exact hc
  · rw [hunbounded] at hb
    cases hb

/-- Whatever a log in memory holds, a query of it leaves it mirrored. -/
theorem query (h : reader.Mirrors log) (range : CursorRange) :
    reader.Mirrors (ViewSource.query log range).2 :=
  ⟨h.rows_eq, h.filed, h.fits, rfl⟩

/-- An intake from a watermark in the calendar up to a time in it stages the same over the table as
over the log in memory. -/
theorem scanIntake (h : reader.Mirrors log) (hstate : state.InCalendar) (hnow : Day.InCalendar now) :
    (Window.scanIntake state now reader lookup).Alike (Window.scanIntake state now log lookup) :=
  Window.scanIntake_alike fun high hhigh =>
    h.answerAlike (readable_of_cursor rfl (hstate.high high hhigh)) (readable_of_cursor rfl hnow)

/-- A take-back from a watermark in the calendar up to a time in it stages the same over the table as
over the log in memory. -/
theorem scanTakeBack (h : reader.Mirrors log) (hstate : state.InCalendar)
    (hstart : Day.InCalendar start) :
    (Window.scanTakeBack state start reader).Alike (Window.scanTakeBack state start log) := by
  refine Window.scanTakeBack_alike fun low hlow high hhigh =>
    h.answerAlike (readable_of_cursor rfl (hstate.low low hlow)) ?_
  rw [TakeBack.range]
  split
  · exact readable_of_cursor rfl hstart
  · exact readable_of_cursor rfl (hstate.high high hhigh)

/-- Whatever is scanned, the reader stays as it is and mirrors the log in memory as before. -/
theorem after_ingest (h : reader.Mirrors log) (state : WindowState) (now : Int64)
    (lookup : Lookup) :
    (Window.ingest state now reader lookup).log.Mirrors
      (Window.ingest state now log lookup).log := by
  have hreader : (Window.ingest state now reader lookup).log = reader := by
    rcases Window.ingest_log state now reader lookup with hlog | ⟨range, hlog⟩ <;> exact hlog
  rw [hreader]
  rcases Window.ingest_log state now log lookup with hlog | ⟨range, hlog⟩
  · rwa [hlog]
  · rw [hlog]
    exact h.query range

end ViewReader.Mirrors

/-- Whatever is written to a table under the days of its timestamps, all of them dates, a reader with
pages that fit into memory mirrors a log in memory of the same views. -/
theorem Archive.mirrors_filing (writes : List Write) {size : UInt64} (hfits : PageFits size)
    (hfiled : OnTheirDays (Archive.writeAll {} writes).written) :
    ((Archive.writeAll {} writes).database.reader size).Mirrors
      (Memory.Log.filing (Archive.writeAll {} writes).written) where
  rows_eq := (Archive.stores_writeAll writes).rows_eq
  filed v hv := hfiled v ((Archive.stores_writeAll writes).perm.mem_iff.mp hv)
  fits := pageFits_max_one.mpr hfits
  unbroken := Memory.Log.failAfter_filing _

end Store

namespace WindowState.InCalendar

open Store (OnTheirDays)

variable {state : WindowState} {now start : Int64} {log : Memory.Log} {lookup : Lookup}

/-- A window that begins at a time of the calendar has its watermarks there. -/
theorem begin {w : Window} (h : w.state.InCalendar) (hstart : Day.InCalendar (w.startAt now)) :
    (w.begin now).InCalendar := by
  unfold Window.begin
  cases hhigh : w.state.high with
  | some high => exact h
  | none =>
    refine ⟨fun c hc => ?_, fun c hc => ?_⟩ <;>
    · cases hc
      exact hstart

/-- A watermark stays where it was, or moves to the last view that was read. -/
private theorem of_last {views held : List View} {old : Option Cursor} {c : Cursor}
    (hold : ∀ c ∈ old, Day.InCalendar c.ts) (hfiled : OnTheirDays held)
    (hviews : ∀ v ∈ views, v ∈ held) (hc : c ∈ (views.getLast?.map View.cursor <|> old)) :
    Day.InCalendar c.ts := by
  cases hlast : views.getLast? with
  | none => exact hold c (by simpa [hlast] using hc)
  | some v =>
    obtain rfl : v.cursor = c := by simpa [hlast] using hc
    exact (hfiled v (hviews v (List.mem_of_getLast? hlast))).2

/-- An intake of views of the calendar leaves the watermarks there. -/
theorem ingest (h : state.InCalendar) (hfiled : OnTheirDays log.views) (now : Int64)
    (lookup : Lookup) : (Window.ingest state now log lookup).state.InCalendar := by
  obtain ⟨-, s, hs, hstate⟩ := Window.ingest_spec state now log lookup
  rw [hstate]
  refine ⟨fun c hc => h.low c (by rwa [low_commitIntake] at hc), fun c hc => ?_⟩
  rw [high_commitIntake, hs.tally_eq] at hc
  exact of_last h.high hfiled (fun _ hv => Window.held_of_mem_freshViews hv) hc

/-- A take-back of views of the calendar leaves the watermarks there. -/
theorem prune (h : state.InCalendar) (hfiled : OnTheirDays log.views) (start : Int64) :
    (Window.prune state start log).state.InCalendar := by
  obtain ⟨-, s, hs, hstate⟩ := Window.prune_spec state start log
  rw [hstate]
  refine ⟨fun c hc => ?_, fun c hc => h.high c (by rwa [high_commitTakeBack] at hc)⟩
  rw [low_commitTakeBack, hs.tally_eq] at hc
  exact of_last h.low hfiled (fun _ hv => Window.held_of_mem_staleViews hv) hc

end WindowState.InCalendar

namespace Window

open Store (ViewReader)

variable {w : Window} {reader : ViewReader} {log : Memory.Log} {now : Int64}

/-- An advance to a time of the calendar, by a window whose start is one too, does the same over a
table as over a log in memory of the same views, and leaves the watermarks in the calendar. -/
theorem advance_alike (hmirrors : reader.Mirrors log) (hstate : w.state.InCalendar)
    (hnow : Day.InCalendar now) (hstart : Day.InCalendar (w.startAt now)) (lookup : Lookup) :
    (w.advance now reader lookup).Alike (w.advance now log lookup) ∧
      (w.advance now log lookup).window.state.InCalendar := by
  have hbegun := hstate.begin hstart
  have hingested : (ingest (w.begin now) now reader lookup).Alike
      (ingest (w.begin now) now log lookup) :=
    (hmirrors.scanIntake hbegun hnow).commitBy WindowState.commitIntake (w.begin now)
  have hafter := hmirrors.after_ingest (w.begin now) now lookup
  -- The take-back reaches up to the watermark that the intake has moved, to a view of the log.
  have hmiddle := hbegun.ingest hmirrors.filed now lookup
  have hpruned : (prune (ingest (w.begin now) now reader lookup).state (w.startAt now)
      (ingest (w.begin now) now reader lookup).log).Alike
      (prune (ingest (w.begin now) now log lookup).state (w.startAt now)
        (ingest (w.begin now) now log lookup).log) := by
    rw [← hingested.state_eq]
    exact (hafter.scanTakeBack hmiddle hstart).commitBy WindowState.commitTakeBack _
  have hend := hmiddle.prune hafter.filed (w.startAt now)
  rw [advance_eq, advance_eq]
  exact ⟨⟨congrArg (fun state => { w with state }) hpruned.state_eq, hingested.result_eq,
    hpruned.result_eq, hingested.asked_eq⟩, hend⟩

/-- An advance of a window: its length from then on, the time, the repository, and what the table
and the log in memory hold. -/
structure TabledTurn where
  /-- The length in seconds. -/
  seconds : Int64
  /-- The time. -/
  now : Int64
  /-- The reader of the table. -/
  reader : ViewReader
  /-- The log in memory. -/
  log : Memory.Log
  /-- The answers of the repository. -/
  lookup : Lookup

/-- A turn in which the reader mirrors the log in memory, to a time of the calendar from a start in
it. -/
structure TabledTurn.Sound (t : TabledTurn) : Prop where
  mirrors : t.reader.Mirrors t.log
  now : Day.InCalendar t.now
  start : Day.InCalendar (({ seconds := t.seconds } : Window).startAt t.now)

end Window

namespace WindowState

/-- The state after an advance over the table. -/
def overTable (state : WindowState) (t : Window.TabledTurn) : WindowState :=
  (Window.advance { seconds := t.seconds, state } t.now t.reader t.lookup).window.state

/-- The state after an advance over the log in memory. -/
def overMemory (state : WindowState) (t : Window.TabledTurn) : WindowState :=
  (Window.advance { seconds := t.seconds, state } t.now t.log t.lookup).window.state

/-- Within the calendar a window over a table goes through the states of a window over a log in
memory of the same views, whatever is written, looked up and set between its advances. -/
theorem foldl_overTable_eq {state : WindowState} (hstate : state.InCalendar)
    {turns : List Window.TabledTurn} (hturns : ∀ t ∈ turns, t.Sound) :
    turns.foldl overTable state = turns.foldl overMemory state := by
  induction turns generalizing state with
  | nil => rfl
  | cons t rest ih =>
    obtain ⟨ht, hrest⟩ := List.forall_mem_cons.mp hturns
    obtain ⟨halike, hnext⟩ := Window.advance_alike (w := { seconds := t.seconds, state })
      ht.mirrors hstate ht.now ht.start t.lookup
    have hstep : state.overTable t = state.overMemory t :=
      (congrArg Window.state halike.window_eq).symm
    rw [List.foldl_cons, List.foldl_cons, hstep]
    exact ih hnext hrest

end WindowState

end Pacing
