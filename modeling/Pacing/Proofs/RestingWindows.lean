import Pacing.Proofs.PhaseSemantics

/-!
# A window at rest

The watermarks stop at the last view that was read and not at the time that was asked for, and a
take-back is bounded by the high watermark that the intake before it has just moved. Still, once
both scans of an advance are complete, no view is left between a watermark and its bound. From there
on every advance to the same time finds nothing and changes nothing, whatever the state was.
-/

namespace Pacing

open HonestSource (held)

/-- The contract of a source that does not break off twice in a row: once it has answered in full it
keeps answering. A log in memory keeps it, and so does a reader of a table between times of the
calendar, which always answers in full there (`Store.ViewReader.query_eq_held`). -/
class SteadySource (σ : Type) [ViewSource σ] where
  /-- The log answers every query in full. -/
  Steady : σ → Prop
  /-- After a query that was answered in full the log answers every query in full. -/
  steady_of_complete {log : σ} {range : CursorRange} {scan : Scan}
    (hscan : (ViewSource.query log range).1 = .ok scan) (hcomplete : scan.failure = none) :
    Steady (ViewSource.query log range).2
  /-- A log that answers in full does not break off. -/
  complete_of_steady {log : σ} (h : Steady log) (range : CursorRange) :
    ∃ scan, (ViewSource.query log range).1 = .ok scan ∧ scan.failure = none

open SteadySource (Steady)

/-- A log in memory breaks off no more than once for each time that it is told to. -/
instance : SteadySource Memory.Log where
  Steady log := log.failAfter = none
  steady_of_complete _ _ := rfl
  complete_of_steady {log} h range := ⟨⟨log.inRange range, none⟩,
    by simp only [ViewSource.query, Memory.Log.query, h], rfl⟩

variable {σ : Type} [ViewSource σ] [HonestSource σ] [SteadySource σ]

/-- Nothing is left to be read in a range, by its bounds or because the log answers and has no view
there. -/
def Spent (log : σ) (range : CursorRange) : Prop :=
  range.isEmpty = true ∨ Steady log ∧ ∀ v ∈ held log, v.cursor ∉ range

/-- Asking a log leaves spent what was. -/
theorem Spent.query {log : σ} {range : CursorRange} (h : Spent log range) (asked : CursorRange) :
    Spent (ViewSource.query log asked).2 range := by
  refine h.imp_right fun ⟨hsteady, hnone⟩ => ⟨?_, fun v hv => hnone v ?_⟩
  · obtain ⟨scan, hscan, hcomplete⟩ := SteadySource.complete_of_steady hsteady asked
    exact SteadySource.steady_of_complete hscan hcomplete
  · rwa [HonestSource.held_query] at hv

/-- A scan of a spent range that is asked for is complete and hands out nothing. -/
theorem Spent.scan_eq {log : σ} {range : CursorRange} (h : Spent log range)
    (hasked : range.isEmpty = false) :
    (ViewSource.query log range).1 = .ok ⟨[], none⟩ := by
  obtain ⟨hsteady, hnone⟩ := h.resolve_left (by simp [hasked])
  obtain ⟨⟨views, failure⟩, hscan, hcomplete⟩ := SteadySource.complete_of_steady hsteady range
  have hviews := HonestSource.views_of_complete hscan hcomplete
  have hnil : (held log).filter (·.cursor ∈ range) = [] := by
    rw [List.filter_eq_nil_iff]
    exact fun v hv => by simpa using hnone v hv
  rw [hscan, show failure = none from hcomplete, show views = [] from hviews.trans hnil]

/-- An intake leaves nothing to be read where there was nothing. -/
theorem Spent.ingest {log : σ} {range : CursorRange} (h : Spent log range) (state : WindowState)
    (now : Int64) (lookup : Lookup) : Spent (Window.ingest state now log lookup).log range := by
  rcases Window.ingest_log state now log lookup with hsame | ⟨asked, hasked⟩
  · rwa [hsame]
  · rw [hasked]
    exact h.query asked

/-- A take-back leaves nothing to be read where there was nothing. -/
theorem Spent.prune {log : σ} {range : CursorRange} (h : Spent log range) (state : WindowState)
    (start : Int64) : Spent (Window.prune state start log).log range := by
  rcases Window.prune_log state start log with hsame | ⟨asked, hasked⟩
  · rwa [hsame]
  · rw [hasked]
    exact h.query asked

namespace Window

variable {state : WindowState} {log : σ} {lookup : Lookup} {now start : Int64} {tally : Tally}

/-- An intake whose range is spent reads nothing, changes nothing and looks nothing up. -/
theorem ingest_of_spent (lookup : Lookup)
    (h : ∀ high ∈ state.high, Spent log (Intake.range high now)) :
    (ingest state now log lookup).state = state ∧
      (ingest state now log lookup).result = .ok {} ∧
      (ingest state now log lookup).asked = [] := by
  have hend := ingestEnd state now log lookup
  generalize ingest state now log lookup = done at hend ⊢
  cases hend with
  | idle => exact ⟨rfl, rfl, rfl⟩
  | unanswered hhigh hasked hquery =>
    have hscan := (h _ hhigh).scan_eq hasked
    rw [hquery] at hscan
    cases hscan
  | abandoned hhigh hasked hquery hread =>
    have hscan := (h _ hhigh).scan_eq hasked
    rw [hquery] at hscan
    cases hscan
    cases hread
  | complete hhigh hasked hquery hread =>
    have hscan := (h _ hhigh).scan_eq hasked
    rw [hquery] at hscan
    cases hscan
    cases hread
    exact ⟨state.commitIntake_empty, rfl, rfl⟩

/-- A take-back whose range is spent reads nothing and changes nothing. -/
theorem prune_of_spent
    (h : ∀ low ∈ state.low, ∀ high ∈ state.high, Spent log (TakeBack.range low high start)) :
    (prune state start log).state = state ∧ (prune state start log).result = .ok {} := by
  have hend := pruneEnd state start log
  generalize prune state start log = done at hend ⊢
  cases hend with
  | idle => exact ⟨rfl, rfl⟩
  | unanswered hlow hhigh hasked hquery =>
    have hscan := (h _ hlow _ hhigh).scan_eq hasked
    rw [hquery] at hscan
    cases hscan
  | abandoned hlow hhigh hasked hquery hread =>
    have hscan := (h _ hlow _ hhigh).scan_eq hasked
    rw [hquery] at hscan
    cases hscan
    cases hread
  | complete hlow hhigh hasked hquery hread =>
    have hscan := (h _ hlow _ hhigh).scan_eq hasked
    rw [hquery] at hscan
    cases hscan
    cases hread
    exact ⟨state.commitTakeBack_empty, rfl⟩

omit [HonestSource σ] in
/-- A complete intake has asked a log that keeps answering, or had nothing to ask for. -/
theorem idle_or_steady_of_ingest_ok (hok : (ingest state now log lookup).result = .ok tally) :
    ((∀ high ∈ state.high, (Intake.range high now).isEmpty = true) ∧
      (ingest state now log lookup).state = state) ∨
    (state.high.isSome ∧ Steady (ingest state now log lookup).log) := by
  have hend := ingestEnd state now log lookup
  generalize ingest state now log lookup = done at hend hok ⊢
  cases hend with
  | idle hempty => exact .inl ⟨hempty, rfl⟩
  | unanswered => cases hok
  | abandoned => cases hok
  | @complete high log' scan s hhigh _ hquery hread =>
    have hsteady := SteadySource.steady_of_complete (by rw [hquery])
      (readScan_eq_complete_iff.mp hread).1
    rw [hquery] at hsteady
    exact .inr ⟨by simp [hhigh], hsteady⟩

omit [HonestSource σ] in
/-- A complete take-back has asked a log that keeps answering, or had nothing to ask for. -/
theorem idle_or_steady_of_prune_ok (hok : (prune state start log).result = .ok tally) :
    ((∀ low ∈ state.low, ∀ high ∈ state.high, (TakeBack.range low high start).isEmpty = true) ∧
      (prune state start log).state = state) ∨
    (state.low.isSome ∧ state.high.isSome ∧ Steady (prune state start log).log) := by
  have hend := pruneEnd state start log
  generalize prune state start log = done at hend hok ⊢
  cases hend with
  | idle hempty => exact .inl ⟨hempty, rfl⟩
  | unanswered => cases hok
  | abandoned => cases hok
  | @complete low high log' scan s hlow hhigh _ hquery hread =>
    have hsteady := SteadySource.steady_of_complete (by rw [hquery])
      (readScan_eq_complete_iff.mp hread).1
    rw [hquery] at hsteady
    exact .inr ⟨by simp [hlow], by simp [hhigh], hsteady⟩

/-- A complete intake leaves nothing between the high watermark and its time. -/
theorem spent_of_ingest_ok (hok : (ingest state now log lookup).result = .ok tally) :
    ∀ high ∈ (ingest state now log lookup).state.high,
      Spent (ingest state now log lookup).log (Intake.range high now) := by
  intro reached hreached
  rcases idle_or_steady_of_ingest_ok hok with ⟨hempty, hstate⟩ | ⟨hbegun, hsteady⟩
  · rw [hstate] at hreached
    exact .inl (hempty reached hreached)
  · obtain ⟨high, hhigh⟩ := Option.isSome_iff_exists.mp hbegun
    obtain ⟨hlog, s, hs, hstate⟩ := ingest_spec state now log lookup
    rw [hstate, hs.high_eq_reach hhigh] at hreached
    cases hreached
    refine .inr ⟨hsteady, fun v hv hmem => ?_⟩
    obtain ⟨hpast, hnow⟩ := mem_intake_range.mp hmem
    have hforward : high ≤ reach (freshViews state now log lookup) high :=
      start_le_reach fun v hv => (of_mem_freshViews hhigh hv).2.1
    have hfresh : v ∈ freshViews state now log lookup := by
      rw [freshViews_of_ok hhigh hok]
      simpa using ⟨hlog ▸ hv, lt_of_le_of_lt hforward hpast, hnow⟩
    exact not_le.mpr hpast (le_reach hs.rising hfresh)

/-- A complete take-back leaves nothing between the low watermark and its bound. -/
theorem spent_of_prune_ok (hok : (prune state start log).result = .ok tally) :
    ∀ low ∈ (prune state start log).state.low, ∀ high ∈ (prune state start log).state.high,
      Spent (prune state start log).log (TakeBack.range low high start) := by
  intro reached hreached high hhigh
  rcases idle_or_steady_of_prune_ok hok with ⟨hempty, hstate⟩ | ⟨hlow, _, hsteady⟩
  · rw [hstate] at hreached hhigh
    exact .inl (hempty reached hreached high hhigh)
  · obtain ⟨low, hlow⟩ := Option.isSome_iff_exists.mp hlow
    obtain ⟨hlog, s, hs, hstate⟩ := prune_spec state start log
    rw [hstate, WindowState.high_commitTakeBack] at hhigh
    rw [hstate, hs.low_eq_reach hlow] at hreached
    cases hreached
    refine .inr ⟨hsteady, fun v hv hmem => ?_⟩
    obtain ⟨hpast, hhigh', hstart⟩ := mem_takeBack_range.mp hmem
    have hforward : low ≤ reach (staleViews state start log) low :=
      start_le_reach fun v hv => (of_mem_staleViews hlow hhigh hv).2.1
    have hstale : v ∈ staleViews state start log := by
      rw [staleViews_of_ok hlow hhigh hok]
      simpa using ⟨hlog ▸ hv, lt_of_le_of_lt hforward hpast, hhigh', hstart⟩
    exact not_le.mpr hpast (le_reach hs.rising hstale)

/-- A window that has begun and for which the log has nothing left at a time. -/
structure AtRest (w : Window) (now : Int64) (log : σ) : Prop where
  begun : w.begin now = w.state
  ingested : ∀ high ∈ w.state.high, Spent log (Intake.range high now)
  pruned : ∀ low ∈ w.state.low, ∀ high ∈ w.state.high,
    Spent log (TakeBack.range low high (w.startAt now))

/-- An advance of a window at rest reads nothing, looks nothing up and leaves the window as it is,
at rest. -/
theorem AtRest.advance {w : Window} (h : w.AtRest now log) (lookup : Lookup) :
    let done := w.advance now log lookup
    done.window = w ∧ done.ingest = .ok {} ∧ done.prune = .ok {} ∧ done.asked = [] ∧
      w.AtRest now done.log := by
  obtain ⟨hbegun, hingested, hpruned⟩ := h
  obtain ⟨hstate, hresult, hasked⟩ := ingest_of_spent lookup hingested
  have hpruned' : ∀ low ∈ w.state.low, ∀ high ∈ w.state.high,
      Spent (ingest w.state now log lookup).log (TakeBack.range low high (w.startAt now)) :=
    fun low hlow high hhigh => (hpruned low hlow high hhigh).ingest w.state now lookup
  obtain ⟨hstate', hresult'⟩ := prune_of_spent hpruned'
  simp only [Window.advance_eq, hbegun, hstate, hstate', hresult, hresult', hasked, true_and]
  refine ⟨hbegun, fun high hhigh => ?_, fun low hlow high hhigh => ?_⟩
  · exact ((hingested high hhigh).ingest w.state now lookup).prune w.state (w.startAt now)
  · exact (hpruned' low hlow high hhigh).prune w.state (w.startAt now)

/-- A window that begins has a high watermark. -/
theorem isSome_high_begin (w : Window) (now : Int64) : (w.begin now).high.isSome := by
  unfold Window.begin
  split
  · rename_i hhigh
    simp [hhigh]
  · rfl

/-- A window that has a high watermark has begun. -/
theorem begin_of_isSome_high {w : Window} (h : w.state.high.isSome) (now : Int64) :
    w.begin now = w.state := by
  obtain ⟨high, hhigh⟩ := Option.isSome_iff_exists.mp h
  simp [Window.begin, hhigh]

/-- A window is at rest after an advance whose scans are both complete. -/
theorem atRest_of_advance {w : Window} {ingested pruned : Tally}
    (hingest : (w.advance now log lookup).ingest = .ok ingested)
    (hprune : (w.advance now log lookup).prune = .ok pruned) :
    (w.advance now log lookup).window.AtRest now (w.advance now log lookup).log := by
  obtain ⟨-, s, -, hstate⟩ := ingest_spec (w.begin now) now log lookup
  obtain ⟨-, t, -, hstate'⟩ := prune_spec (ingest (w.begin now) now log lookup).state
    (w.startAt now) (ingest (w.begin now) now log lookup).log
  have hhigh : (w.advance now log lookup).window.state.high =
      (ingest (w.begin now) now log lookup).state.high :=
    (congrArg WindowState.high hstate').trans (WindowState.high_commitTakeBack _ t)
  refine ⟨begin_of_isSome_high ?_ now, fun high hmem => ?_, spent_of_prune_ok hprune⟩
  · rw [hhigh, hstate, WindowState.high_commitIntake]
    simp [isSome_high_begin w now]
  · rw [hhigh] at hmem
    exact (spent_of_ingest_ok hingest high hmem).prune _ _

/-- The same advance once more. -/
def Advance.again (now : Int64) (lookup : Lookup) (done : Advance σ) : Advance σ :=
  done.window.advance now done.log lookup

/-- However often the advance of a window at rest is repeated, both scans read nothing and the
window stays as it is. -/
theorem again_of_atRest {done : Advance σ} (h : done.window.AtRest now done.log)
    (lookup : Lookup) (n : Nat) :
    let later := (Advance.again now lookup)^[n + 1] done
    later.ingest = .ok {} ∧ later.prune = .ok {} ∧ later.window = done.window := by
  induction n generalizing done with
  | zero =>
    obtain ⟨hwindow, hingest, hprune, -, -⟩ := h.advance lookup
    exact ⟨hingest, hprune, hwindow⟩
  | succ n ih =>
    obtain ⟨hwindow, -, -, -, hrest⟩ := h.advance lookup
    let next := done.again now lookup
    have hnext : next.window = done.window := hwindow
    have hstill : next.window.AtRest now next.log := by
      rw [hnext]
      exact hrest
    rw [Function.iterate_succ_apply, ← hnext]
    exact ih hstill

end Window

end Pacing
