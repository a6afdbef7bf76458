import Pacing.Proofs.TakeBackAccounts

/-!
# What the two scans of an advance do

A scan that fails changes nothing, a scan of an empty range reads nothing, and a complete scan reads
every view of its range and commits the sum of them. All three are one statement once a scan that
fails is said to read no views. From it follows what an advance does to the accounts of the window.
-/

namespace Pacing

open HonestSource (held)

/-- An intake ranges over the cursors past the high watermark whose time has come. -/
theorem mem_intake_range {high c : Cursor} {now : Int64} :
    c ∈ Intake.range high now ↔ high < c ∧ c.ts ≤ now := by
  rw [← Cursor.le_ceiling_iff]
  rfl

/-- A take-back ranges over the cursors between the watermarks that lie before the start of the
window. -/
theorem mem_takeBack_range {low high c : Cursor} {start : Int64} :
    c ∈ TakeBack.range low high start ↔ low < c ∧ c ≤ high ∧ c < Cursor.floor start := by
  simp only [TakeBack.range, CursorRange.mem_iff, Bound.Below, and_congr_right_iff]
  intro _
  split
  · rename_i hle
    exact ⟨fun hc => ⟨le_trans (le_of_lt hc) hle, hc⟩, fun hc => hc.2⟩
  · rename_i hlt
    exact ⟨fun hc => ⟨hc, lt_of_le_of_lt hc (not_le.mp hlt)⟩, fun hc => hc.1⟩

namespace WindowState

/-- Committing an intake that read nothing changes nothing. -/
theorem commitIntake_empty (state : WindowState) : state.commitIntake {} = state := by
  simp [commitIntake, Intake.missed, addTotals, sealAll, appendAll, toList_empty]

/-- Committing a take-back that read nothing changes nothing. -/
theorem commitTakeBack_empty (state : WindowState) : state.commitTakeBack {} = state := by
  simp [commitTakeBack, subtractTotals, takeBackAll]

end WindowState

namespace Window

section Ends

variable {σ : Type} [ViewSource σ]

/-- The ways in which a scan of new views ends. -/
inductive IngestEnd (state : WindowState) (now : Int64) (log : σ) (lookup : Lookup) :
    ScanOutcome σ → Prop
  /-- There is nothing to ask for. -/
  | idle (hempty : ∀ high ∈ state.high, (Intake.range high now).isEmpty = true) :
    IngestEnd state now log lookup { state, log, result := .ok {} }
  /-- The log does not answer. -/
  | unanswered {high : Cursor} {log' : σ} {e : SourceError} (hhigh : state.high = some high)
      (hasked : (Intake.range high now).isEmpty = false)
      (hquery : ViewSource.query log (Intake.range high now) = (.error e, log')) :
    IngestEnd state now log lookup { state, log := log', result := .error (.source .ingest e) }
  /-- Not all views of the range are read. -/
  | abandoned {high : Cursor} {log' : σ} {scan : Scan} {s : Intake} {e : ScanError}
      (hhigh : state.high = some high)
      (hasked : (Intake.range high now).isEmpty = false)
      (hquery : ViewSource.query log (Intake.range high now) = (.ok scan, log'))
      (hread : readScan .ingest (Intake.note lookup) {} scan = (s, some e)) :
    IngestEnd state now log lookup { state, log := log', result := .error e, asked := s.asked }
  /-- All are read, and counted. -/
  | complete {high : Cursor} {log' : σ} {scan : Scan} {s : Intake} (hhigh : state.high = some high)
      (hasked : (Intake.range high now).isEmpty = false)
      (hquery : ViewSource.query log (Intake.range high now) = (.ok scan, log'))
      (hread : readScan .ingest (Intake.note lookup) {} scan = (s, none)) :
    IngestEnd state now log lookup
      { state := state.commitIntake s, log := log', result := .ok s.tally, asked := s.asked }

/-- The ways in which a scan of expired views ends. -/
inductive PruneEnd (state : WindowState) (start : Int64) (log : σ) : ScanOutcome σ → Prop
  /-- There is nothing to ask for. -/
  | idle (hempty : ∀ low ∈ state.low, ∀ high ∈ state.high,
      (TakeBack.range low high start).isEmpty = true) :
    PruneEnd state start log { state, log, result := .ok {} }
  /-- The log does not answer. -/
  | unanswered {low high : Cursor} {log' : σ} {e : SourceError} (hlow : state.low = some low)
      (hhigh : state.high = some high)
      (hasked : (TakeBack.range low high start).isEmpty = false)
      (hquery : ViewSource.query log (TakeBack.range low high start) = (.error e, log')) :
    PruneEnd state start log { state, log := log', result := .error (.source .prune e) }
  /-- Not all views of the range are read. -/
  | abandoned {low high : Cursor} {log' : σ} {scan : Scan} {s : TakeBack} {e : ScanError}
      (hlow : state.low = some low) (hhigh : state.high = some high)
      (hasked : (TakeBack.range low high start).isEmpty = false)
      (hquery : ViewSource.query log (TakeBack.range low high start) = (.ok scan, log'))
      (hread : readScan .prune (TakeBack.note state) {} scan = (s, some e)) :
    PruneEnd state start log { state, log := log', result := .error e }
  /-- All are read, and taken back. -/
  | complete {low high : Cursor} {log' : σ} {scan : Scan} {s : TakeBack}
      (hlow : state.low = some low) (hhigh : state.high = some high)
      (hasked : (TakeBack.range low high start).isEmpty = false)
      (hquery : ViewSource.query log (TakeBack.range low high start) = (.ok scan, log'))
      (hread : readScan .prune (TakeBack.note state) {} scan = (s, none)) :
    PruneEnd state start log { state := state.commitTakeBack s, log := log', result := .ok s.tally }

/-- Every scan of new views ends in one of these ways. -/
theorem ingestEnd (state : WindowState) (now : Int64) (log : σ) (lookup : Lookup) :
    IngestEnd state now log lookup (ingest state now log lookup) := by
  unfold ingest ingestBy scanIntake
  cases hhigh : state.high with
  | none => exact .idle (by simp [hhigh])
  | some high =>
    dsimp only
    split
    · rename_i hempty
      exact .idle (by simpa [hhigh] using hempty)
    · rename_i hasked
      rw [Bool.not_eq_true] at hasked
      split
      · rename_i hquery
        exact .unanswered hhigh hasked hquery
      · rename_i hquery
        split
        · rename_i hread
          exact .abandoned hhigh hasked hquery hread
        · rename_i hread
          exact .complete hhigh hasked hquery hread

/-- Every scan of expired views ends in one of these ways. -/
theorem pruneEnd (state : WindowState) (start : Int64) (log : σ) :
    PruneEnd state start log (prune state start log) := by
  unfold prune pruneBy scanTakeBack
  split
  · rename_i low high hlow hhigh
    dsimp only
    split
    · rename_i hempty
      exact .idle (by simpa [hlow, hhigh] using hempty)
    · rename_i hasked
      rw [Bool.not_eq_true] at hasked
      split
      · rename_i hquery
        exact .unanswered hlow hhigh hasked hquery
      · rename_i hquery
        split
        · rename_i hread
          exact .abandoned hlow hhigh hasked hquery hread
        · rename_i hread
          exact .complete hlow hhigh hasked hquery hread
  · rename_i hnone
    exact .idle fun low hlow high hhigh => absurd hhigh (hnone low high hlow)

/-- A scan of new views asks the log once or not at all. -/
theorem ingest_log (state : WindowState) (now : Int64) (log : σ) (lookup : Lookup) :
    (ingest state now log lookup).log = log ∨
      ∃ range, (ingest state now log lookup).log = (ViewSource.query log range).2 := by
  have hend := ingestEnd state now log lookup
  generalize ingest state now log lookup = done at hend ⊢
  cases hend with
  | idle => exact .inl rfl
  | unanswered _ _ hquery => exact .inr ⟨_, by rw [hquery]⟩
  | abandoned _ _ hquery => exact .inr ⟨_, by rw [hquery]⟩
  | complete _ _ hquery => exact .inr ⟨_, by rw [hquery]⟩

/-- A scan of expired views asks the log once or not at all. -/
theorem prune_log (state : WindowState) (start : Int64) (log : σ) :
    (prune state start log).log = log ∨
      ∃ range, (prune state start log).log = (ViewSource.query log range).2 := by
  have hend := pruneEnd state start log
  generalize prune state start log = done at hend ⊢
  cases hend with
  | idle => exact .inl rfl
  | unanswered _ _ _ hquery => exact .inr ⟨_, by rw [hquery]⟩
  | abandoned _ _ _ hquery => exact .inr ⟨_, by rw [hquery]⟩
  | complete _ _ _ hquery => exact .inr ⟨_, by rw [hquery]⟩

end Ends

variable {σ : Type} [ViewSource σ] [HonestSource σ] {state : WindowState} {log : σ}
  {lookup : Lookup} {now start : Int64} {low high : Cursor} {v : View}

/-- A complete intake reads the logged views past the high watermark and up to now. -/
theorem freshViews_of_ok {tally : Tally} (hhigh : state.high = some high)
    (hok : (ingest state now log lookup).result = .ok tally) :
    freshViews state now log lookup =
      (held log).filter fun v => high < v.cursor ∧ v.cursor.ts ≤ now := by
  simp only [freshViews, hok, hhigh, mem_intake_range]

/-- An intake that fails has read no fresh views. -/
theorem freshViews_of_error {e : ScanError}
    (herror : (ingest state now log lookup).result = .error e) :
    freshViews state now log lookup = [] := by
  simp [freshViews, herror]

/-- A complete take-back reads the logged views between the watermarks that the start of the window
has left behind. -/
theorem staleViews_of_ok {tally : Tally} (hlow : state.low = some low)
    (hhigh : state.high = some high) (hok : (prune state start log).result = .ok tally) :
    staleViews state start log = (held log).filter fun v =>
      low < v.cursor ∧ v.cursor ≤ high ∧ v.cursor < Cursor.floor start := by
  simp only [staleViews, hok, hlow, hhigh, mem_takeBack_range]

/-- A take-back that fails has read no stale views. -/
theorem staleViews_of_error {e : ScanError} (herror : (prune state start log).result = .error e) :
    staleViews state start log = [] := by
  simp [staleViews, herror]

/-- Fresh views are held by the log. -/
theorem held_of_mem_freshViews (hv : v ∈ freshViews state now log lookup) : v ∈ held log := by
  unfold freshViews at hv
  split at hv
  · exact (List.mem_filter.mp hv).1
  · cases hv

/-- Stale views are held by the log. -/
theorem held_of_mem_staleViews (hv : v ∈ staleViews state start log) : v ∈ held log := by
  unfold staleViews at hv
  split at hv
  · exact (List.mem_filter.mp hv).1
  · cases hv

/-- Fresh views are held by the log past the high watermark, and their time has come. -/
theorem of_mem_freshViews (hhigh : state.high = some high)
    (hv : v ∈ freshViews state now log lookup) :
    v ∈ held log ∧ high < v.cursor ∧ v.cursor.ts ≤ now := by
  cases hresult : (ingest state now log lookup).result with
  | error e => simp [freshViews_of_error hresult] at hv
  | ok tally => simpa [freshViews_of_ok hhigh hresult] using hv

/-- Stale views are held by the log between the watermarks, before the start of the window. -/
theorem of_mem_staleViews (hlow : state.low = some low) (hhigh : state.high = some high)
    (hv : v ∈ staleViews state start log) :
    v ∈ held log ∧ low < v.cursor ∧ v.cursor ≤ high ∧ v.cursor < Cursor.floor start := by
  cases hresult : (prune state start log).result with
  | error e => simp [staleViews_of_error hresult] at hv
  | ok tally => simpa [staleViews_of_ok hlow hhigh hresult] using hv

/-- No view lies in a range that is empty by its bounds. -/
private theorem filter_range_eq_nil {range : CursorRange} (hempty : range.isEmpty = true)
    (views : List View) : views.filter (·.cursor ∈ range) = [] := by
  rw [List.filter_eq_nil_iff]
  intro v _
  simpa using CursorRange.not_mem_of_isEmpty hempty v.cursor

/-- A window that begins holds what it held. -/
theorem holdings_begin (w : Window) (now : Int64) : (w.begin now).holdings = w.state.holdings := by
  unfold Window.begin
  split <;> rfl

/-- What a scan of new views leaves behind. Abandoned, it changes nothing. Otherwise it has noted
all the views of its range, reports what it staged and commits that. The log holds what it held. -/
theorem ingest_outcome (state : WindowState) (now : Int64) (log : σ) (lookup : Lookup) :
    let done := ingest state now log lookup
    held done.log = held log ∧
      ((∃ e, done.result = .error e ∧ done.state = state) ∨
        ∃ s, readWhile (Intake.note lookup) {} (freshViews state now log lookup) = (s, none) ∧
          done.result = .ok s.tally ∧ done.state = state.commitIntake s) := by
  have hend := ingestEnd state now log lookup
  have hlog : held (ingest state now log lookup).log = held log := by
    rcases ingest_log state now log lookup with hsame | ⟨range, hasked⟩
    · rw [hsame]
    · rw [hasked, HonestSource.held_query]
  unfold freshViews
  generalize ingest state now log lookup = done at hend hlog ⊢
  refine ⟨hlog, ?_⟩
  cases hend with
  | idle hempty =>
    right
    refine ⟨{}, ?_, rfl, state.commitIntake_empty.symm⟩
    cases hhigh : state.high with
    | none => rfl
    | some high => simp [filter_range_eq_nil (hempty high hhigh), readWhile]
  | unanswered => exact .inl ⟨_, rfl, rfl⟩
  | abandoned => exact .inl ⟨_, rfl, rfl⟩
  | @complete high _ scan s hhigh _ hquery hread =>
    obtain ⟨hcomplete, hwhile⟩ := readScan_eq_complete_iff.mp hread
    rw [HonestSource.views_of_complete (by rw [hquery]) hcomplete] at hwhile
    exact .inr ⟨s, by simpa [hhigh] using hwhile, rfl, rfl⟩

/-- What a scan of expired views leaves behind. Abandoned, it changes nothing. Otherwise it has noted
all the views of its range, reports what it staged and commits that. The log holds what it held. -/
theorem prune_outcome (state : WindowState) (start : Int64) (log : σ) :
    let done := prune state start log
    held done.log = held log ∧
      ((∃ e, done.result = .error e ∧ done.state = state) ∨
        ∃ s, readWhile (TakeBack.note state) {} (staleViews state start log) = (s, none) ∧
          done.result = .ok s.tally ∧ done.state = state.commitTakeBack s) := by
  have hend := pruneEnd state start log
  have hlog : held (prune state start log).log = held log := by
    rcases prune_log state start log with hsame | ⟨range, hasked⟩
    · rw [hsame]
    · rw [hasked, HonestSource.held_query]
  unfold staleViews
  generalize prune state start log = done at hend hlog ⊢
  refine ⟨hlog, ?_⟩
  cases hend with
  | idle hempty =>
    right
    refine ⟨{}, ?_, rfl, state.commitTakeBack_empty.symm⟩
    cases hlow : state.low with
    | none => rfl
    | some low =>
      cases hhigh : state.high with
      | none => rfl
      | some high => simp [filter_range_eq_nil (hempty low hlow high hhigh), readWhile]
  | unanswered => exact .inl ⟨_, rfl, rfl⟩
  | abandoned => exact .inl ⟨_, rfl, rfl⟩
  | @complete low high _ scan s hlow hhigh _ hquery hread =>
    obtain ⟨hcomplete, hwhile⟩ := readScan_eq_complete_iff.mp hread
    rw [HonestSource.views_of_complete (by rw [hquery]) hcomplete] at hwhile
    exact .inr ⟨s, by simpa [hlow, hhigh] using hwhile, rfl, rfl⟩

/-- A scan of new views commits the sum of the views that it read, and the log holds what it
held. -/
theorem ingest_spec (state : WindowState) (now : Int64) (log : σ) (lookup : Lookup) :
    held (ingest state now log lookup).log = held log ∧
      ∃ s, Intake.SumsUp lookup (freshViews state now log lookup) s ∧
        (ingest state now log lookup).state = state.commitIntake s := by
  obtain ⟨hlog, ⟨e, herror, hstate⟩ | ⟨s, hread, -, hstate⟩⟩ := ingest_outcome state now log lookup
  · rw [freshViews_of_error herror]
    exact ⟨hlog, {}, .empty lookup, hstate.trans state.commitIntake_empty.symm⟩
  · exact ⟨hlog, s, Intake.sumsUp_of_readWhile hread, hstate⟩

/-- A scan of expired views commits the sum of the views that it read, and the log holds what it
held. -/
theorem prune_spec (state : WindowState) (start : Int64) (log : σ) :
    held (prune state start log).log = held log ∧
      ∃ s, TakeBack.SumsUp state (staleViews state start log) s ∧
        (prune state start log).state = state.commitTakeBack s := by
  obtain ⟨hlog, ⟨e, herror, hstate⟩ | ⟨s, hread, -, hstate⟩⟩ := prune_outcome state start log
  · rw [staleViews_of_error herror]
    exact ⟨hlog, {}, .empty state, hstate.trans state.commitTakeBack_empty.symm⟩
  · exact ⟨hlog, s, TakeBack.sumsUp_of_readWhile hread, hstate⟩

/-- After an advance the log holds what it held. -/
theorem held_advance (w : Window) (now : Int64) (log : σ) (lookup : Lookup) :
    held (w.advance now log lookup).log = held log :=
  (prune_spec _ (w.startAt now) _).1.trans (ingest_spec (w.begin now) now log lookup).1

end Window

namespace Accounts

variable {σ : Type} [ViewSource σ] [HonestSource σ] {state : WindowState} {log : σ}
  {readings : List Reading} {low high : Cursor}

/-- A window that begins has its accounts in order: it has counted nothing. -/
theorem begin (w : Window) (hstate : w.state = {}) (now : Int64) :
    Accounts (w.begin now) [] (Cursor.floor (w.startAt now)) (Cursor.floor (w.startAt now)) := by
  have hbegin : w.begin now =
      { low := some (Cursor.floor (w.startAt now))
        high := some (Cursor.floor (w.startAt now)) } := by
    simp [Window.begin, hstate]
  rw [hbegin]
  refine ⟨rfl, rfl, le_refl _, List.Pairwise.nil, by simp, by simp, fun id => ?_,
    fun _ b => by simp [WindowState.total]⟩
  exact ⟨by simpa using SegmentsSound.nil_iff.mpr (by simp [readingsOf]), by simp, by simp⟩

/-- A window whose accounts are in order has begun. -/
theorem begin_eq {w : Window} (h : Accounts w.state readings low high) (now : Int64) :
    w.begin now = w.state := by
  simp [Window.begin, h.high_eq]

/-- A scan of new views keeps the accounts in order. -/
theorem ingest (h : Accounts state readings low high) (now : Int64) (log : σ) (lookup : Lookup) :
    Accounts (Window.ingest state now log lookup).state
      (readings ++ (Window.freshViews state now log lookup).map (Reading.under lookup)) low
      (reach (Window.freshViews state now log lookup) high) := by
  obtain ⟨_, s, hs, hstate⟩ := Window.ingest_spec state now log lookup
  rw [hstate]
  exact h.commitIntake hs fun v hv => (Window.of_mem_freshViews h.high_eq hv).2.1

/-- A scan of expired views keeps the accounts in order if all that it takes back has been read. -/
theorem prune (h : Accounts state readings low high) (start : Int64) (log : σ)
    (hviews : Expires state readings low high (Window.staleViews state start log)) :
    Accounts (Window.prune state start log).state readings
      (reach (Window.staleViews state start log) low) high := by
  obtain ⟨_, s, hs, hstate⟩ := Window.prune_spec state start log
  rw [hstate]
  exact h.commitTakeBack hs hviews

end Accounts

end Pacing
