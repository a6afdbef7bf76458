import Pacing.Proofs.ChronicleAccounts
import Pacing.Proofs.ViewRows

/-!
# Watermarks that never go back

A snapshot that is accepted may hold counters that no window has ever had: segments that overlap or
end past the high watermark, totals that belong to no views. Whatever the window meets after such a
state, the watermarks stay in order and never go back, the high one only moves to views that are not
in the future, and nothing is kept that holds no views. All that it takes of the log is that a scan
keeps to its range; that views come in order the window checks by itself.
-/

namespace Pacing

open HonestSource (held)

/-- A holding has segments, and each of them holds views. -/
structure Holding.Populated (h : Holding) : Prop where
  nonempty : h.segments ≠ []
  held : ∀ s ∈ h.segments, 0 < s.views

namespace Holding.Populated

variable {g g' : Holding} {run : Segment}

/-- Sealing leaves a holding populated. -/
theorem sealOff (h : g.Populated) : g.sealOff.Populated := ⟨h.nonempty, h.held⟩

/-- A run of views leaves a holding populated, whether there was one before or not. -/
theorem append {held : Option Holding} (h : ∀ g ∈ held, g.Populated) (hrun : 0 < run.views) :
    ((held.getD {}).append run).Populated := by
  cases held with
  | none => exact ⟨by simp [Holding.append], by simpa [Holding.append] using hrun⟩
  | some g =>
    have hg := h g rfl
    obtain ⟨segments, isSealed⟩ := g
    obtain ⟨front, newest, rfl⟩ := List.eq_nil_or_concat' segments |>.resolve_left hg.nonempty
    rw [Option.getD_some, Holding.append_concat]
    split
    · have hjoined : 0 < (newest.join run).views := Nat.lt_of_lt_of_le hrun (Nat.le_add_left _ _)
      have hfront : ∀ s ∈ front, 0 < s.views := (List.forall_mem_append.mp hg.held).1
      exact ⟨by simp, List.forall_mem_append.mpr ⟨hfront, List.forall_mem_singleton.mpr hjoined⟩⟩
    · exact ⟨by simp, List.forall_mem_append.mpr ⟨hg.held, List.forall_mem_singleton.mpr hrun⟩⟩

/-- Taking views back leaves a holding populated. -/
theorem takeBack {start : Cursor} {n : Nat} (h : g.Populated)
    (htake : g.takeBack? start n = some g') : g'.Populated := by
  have hreduced : ∀ s ∈ reduce start n g.segments, 0 < s.views :=
    forall_mem_reduce (fun s _ hleft => Nat.sub_pos_of_lt hleft) h.held
  unfold takeBack? at htake
  split at htake
  · cases htake
  · rename_i hleft
    cases htake
    exact ⟨hleft, hreduced⟩

end Holding.Populated

namespace WindowState

/-- Every boost that is kept holds views in each of its segments. -/
def Populated (state : WindowState) : Prop := ∀ id : String, ∀ h ∈ state.holdings[id]?, h.Populated

/-- The watermarks are there and in order. -/
structure Between (state : WindowState) (low high : Cursor) : Prop where
  low_eq : state.low = some low
  high_eq : state.high = some high
  low_le_high : low ≤ high

/-- Neither watermark is there. -/
def Unbegun (state : WindowState) : Prop := state.low = none ∧ state.high = none

/-- A watermark that is there stays there and does not go back. -/
structure Forward (state state' : WindowState) : Prop where
  low : ∀ low ∈ state.low, ∃ low' ∈ state'.low, low ≤ low'
  high : ∀ high ∈ state.high, ∃ high' ∈ state'.high, high ≤ high'

variable {state state' state'' : WindowState} {low high low' high' : Cursor}

/-- A state is not behind itself. -/
theorem Forward.refl (state : WindowState) : state.Forward state :=
  ⟨fun low hlow => ⟨low, hlow, le_refl low⟩,
    fun high hhigh => ⟨high, hhigh, le_refl high⟩⟩

/-- Watermarks that move forward twice have moved forward. -/
theorem Forward.trans (h : state.Forward state') (h' : state'.Forward state'') :
    state.Forward state'' where
  low low hlow := by
    obtain ⟨low', hlow', hle⟩ := h.low low hlow
    obtain ⟨low'', hlow'', hle'⟩ := h'.low low' hlow'
    exact ⟨low'', hlow'', le_trans hle hle'⟩
  high high hhigh := by
    obtain ⟨high', hhigh', hle⟩ := h.high high hhigh
    obtain ⟨high'', hhigh'', hle'⟩ := h'.high high' hhigh'
    exact ⟨high'', hhigh'', le_trans hle hle'⟩

/-- Watermarks have moved forward if neither is behind where it was. -/
theorem Between.forward (h : state.Between low high) (h' : state'.Between low' high')
    (hlow : low ≤ low') (hhigh : high ≤ high') : state.Forward state' where
  low c hc := by
    rw [h.low_eq, Option.mem_some] at hc
    exact ⟨low', h'.low_eq, hc ▸ hlow⟩
  high c hc := by
    rw [h.high_eq, Option.mem_some] at hc
    exact ⟨high', h'.high_eq, hc ▸ hhigh⟩

/-- Watermarks that are not there do not go back. -/
theorem Unbegun.forward (h : state.Unbegun) (state' : WindowState) : state.Forward state' :=
  ⟨by simp [h.1], by simp [h.2]⟩

/-! ## What is kept of the boosts -/

/-- Committing an intake leaves a populated window populated. -/
theorem Populated.commitIntake (h : state.Populated) {lookup : Lookup} {views : List View}
    {s : Intake} (hs : Intake.SumsUp lookup views s) : (state.commitIntake s).Populated := by
  intro id
  refine state.forall_holding_commitIntake (fun g hg => hg) (fun g hg => hg.sealOff)
    (fun run hrun held hheld => Holding.Populated.append hheld ?_) (h id)
  rw [hs.runs_eq] at hrun
  cases hprofile : profileOf lookup id with
  | none => simp [hprofile] at hrun
  | some p =>
    rw [hprofile] at hrun
    obtain ⟨first, -, hfirst, -, rfl⟩ := Segment.ofRun?_eq_some_iff.mp hrun
    exact List.length_pos_of_mem (List.mem_of_mem_head? hfirst)

/-- Committing a take-back leaves a populated window populated. -/
theorem Populated.commitTakeBack (h : state.Populated) (s : TakeBack) :
    (state.commitTakeBack s).Populated := fun id =>
  state.forall_holding_commitTakeBack (fun _ _ _ _ hg htake => hg.takeBack htake) s (h id)

end WindowState

/-- An accepted snapshot gives its watermarks to the state. They are both absent or in order, and
nothing in the state holds no views. -/
theorem Snapshot.of_toState {snapshot : Snapshot} {state : WindowState}
    (haccepted : snapshot.toState = .ok state) :
    state.low = snapshot.low ∧ state.high = snapshot.high ∧ state.Populated ∧
      (state.Unbegun ∨ ∃ low high, state.Between low high) := by
  have hpopulated : state.Populated := by
    intro id h hh
    obtain ⟨hnonempty, hsegments⟩ := held_of_toState haccepted hh
    exact ⟨hnonempty, fun s hs => (hsegments s hs).1⟩
  obtain ⟨hwatermarks, -, rfl⟩ := toState_eq_ok_iff.mp haccepted
  refine ⟨rfl, rfl, hpopulated, hwatermarks.imp_right ?_⟩
  rintro ⟨low, high, hlow, hhigh, hle⟩
  exact ⟨low, high, hlow, hhigh, hle⟩

/-! ## Logs that keep to the range -/

/-- A log after it was asked for some ranges, one after the other. -/
def askedFor {σ : Type} [ViewSource σ] (log : σ) (ranges : List CursorRange) : σ :=
  ranges.foldl (fun log range => (ViewSource.query log range).2) log

/-- However often it was asked before, a complete scan of the log hands out no view outside of the
range asked for. Views may still be missing, late, out of order or filed under any day. -/
def Confined {σ : Type} [ViewSource σ] (log : σ) : Prop :=
  ∀ (before : List CursorRange) (range : CursorRange) (scan : Scan),
    (ViewSource.query (askedFor log before) range).1 = .ok scan → scan.failure = none →
      ∀ v ∈ scan.views, v.cursor ∈ range

/-- A log that hands out what it holds keeps to the range. -/
theorem HonestSource.confined {σ : Type} [ViewSource σ] [HonestSource σ] (log : σ) :
    Confined log := by
  intro before range scan hscan hcomplete v hv
  rw [HonestSource.views_of_complete hscan hcomplete] at hv
  simpa using (List.mem_filter.mp hv).2

/-- A query leaves a log that answers within the ranges one that does. -/
theorem Confined.query {σ : Type} [ViewSource σ] {log : σ} (h : Confined log)
    (range : CursorRange) : Confined (ViewSource.query log range).2 :=
  fun before => h (range :: before)

namespace Store

variable {t : ViewTable} {d : Day} {low high : Bound} {range : CursorRange} {size : UInt64} {v : View}

/-- A page has only views between its bounds. -/
theorem ViewTable.mem_page {views : List View} (hwords : ∀ r ∈ t.rows, r.WordSized)
    (hpage : t.page d low high size = .ok views) (hv : v ∈ views) :
    low.Below v.cursor ∧ high.Above v.cursor := by
  have hread : ((t.rows.filter fun r =>
      r.IsFiledUnder d ∧ r.respectsLow low ∧ r.respectsHigh high).take size.toNat).mapM
        (·.view d) = .ok views := by
    rw [page] at hpage
    split at hpage
    · exact mapError_eq_ok_iff.mp hpage
    · cases hpage
  obtain ⟨r, hr, hview⟩ := exists_of_mem_mapM hread hv
  obtain ⟨hrow, hchosen⟩ := List.mem_filter.mp (List.mem_of_mem_take hr)
  simp only [decide_eq_true_eq] at hchosen
  exact ⟨(ViewRow.respectsLow_iff (hwords r hrow) hview low).mp hchosen.2.1,
    (ViewRow.respectsHigh_iff (hwords r hrow) hview high).mp hchosen.2.2⟩

/-- The pages of a day have only views between the bounds: each page begins past a view that lay
between them. -/
theorem ViewTable.mem_readPages (hwords : ∀ r ∈ t.rows, r.WordSized) {pages : Nat}
    (hv : v ∈ (t.readPages d high size pages low).views) :
    low.Below v.cursor ∧ high.Above v.cursor := by
  induction pages generalizing low with
  | zero => cases hv
  | succ pages ih =>
    simp only [readPages] at hv
    split at hv
    · cases hv
    · rename_i views hpage
      split at hv
      · rename_i last hlast
        have hlow := (mem_page hwords hpage (List.mem_of_getLast? hlast)).1
        split at hv
        · exact mem_page hwords hpage hv
        · simp only [followedBy, Option.isSome_none, Bool.false_eq_true, if_false] at hv
          rcases List.mem_append.mp hv with hv | hv
          · exact mem_page hwords hpage hv
          · obtain ⟨hpast, hhigh⟩ := ih hv
            exact ⟨hlow.of_lt hpast, hhigh⟩
      · cases hv

/-- What is read from days lies in the range. -/
theorem ViewTable.mem_readDays (hwords : ∀ r ∈ t.rows, r.WordSized) {days : List Day}
    (hv : v ∈ (t.readDays range size days).views) : v.cursor ∈ range := by
  have hfold : ∀ (days : List Day) (scan : Scan), (∀ v ∈ scan.views, v.cursor ∈ range) →
      ∀ v ∈ (days.foldl (fun scan d => followedBy scan (t.readDay range size d)) scan).views,
        v.cursor ∈ range := by
    intro days
    induction days with
    | nil => exact fun _ hscan => hscan
    | cons d rest ih =>
      refine fun scan hscan => ih _ fun v hv => ?_
      simp only [followedBy] at hv
      split at hv
      · exact hscan v hv
      · exact (List.mem_append.mp hv).elim (hscan v) (mem_readPages hwords)
  exact hfold days _ (by simp) v hv

/-- A reader keeps to the range, whatever rows of 64-bit timestamps its table has. -/
theorem ViewReader.confined (reader : ViewReader)
    (hwords : ∀ t ∈ reader.table, ∀ r ∈ t.rows, r.WordSized) : Confined reader := by
  intro before range scan hscan _ v hv
  have hsame : ∀ ranges, askedFor reader ranges = reader := by
    intro ranges
    induction ranges with
    | nil => rfl
    | cons _ rest ih => exact ih
  simp only [hsame, ViewSource.query, query] at hscan
  split at hscan
  · cases hscan
    cases hv
  · split at hscan
    · cases hscan
    · rename_i t htable
      split at hscan
      · cases hscan
      · cases hscan
        exact ViewTable.mem_readDays (hwords t htable) hv

end Store

/-! ## Where a move leaves the watermarks -/

/-- A move of a window: the length of the window from then on, the time that it is moved to, and the
log and the repository that it meets there. -/
structure Window.Move (σ : Type) [ViewSource σ] where
  /-- The length in seconds. -/
  seconds : Int64
  /-- The time. -/
  now : Int64
  /-- The log of views. -/
  log : σ
  /-- The answers of the repository. -/
  lookup : Lookup
  confined : Confined log

variable {σ : Type} [ViewSource σ]

namespace Window

variable {state : WindowState} {low high : Cursor} {log : σ}

/-- Once it has begun a window is between its watermarks, and its state has not moved back. -/
theorem begin_between (w : Window) (now : Int64)
    (h : w.state.Unbegun ∨ ∃ low high, w.state.Between low high) :
    ∃ low high, (w.begin now).Between low high ∧ w.state.Forward (w.begin now) ∧
      ∀ old ∈ w.state.high, old = high := by
  rcases h with ⟨hlow, hhigh⟩ | ⟨low, high, h⟩
  · have hbegin : w.begin now =
        { w.state with
          low := some (Cursor.floor (w.startAt now))
          high := some (Cursor.floor (w.startAt now)) } := by
      simp [Window.begin, hhigh]
    rw [hbegin]
    exact ⟨_, _, ⟨rfl, rfl, le_refl _⟩, WindowState.Unbegun.forward ⟨hlow, hhigh⟩ _,
      by simp [hhigh]⟩
  · have hbegin : w.begin now = w.state := by simp [Window.begin, h.high_eq]
    rw [hbegin]
    exact ⟨low, high, h, .refl _, by simp [h.high_eq, eq_comm]⟩

/-- Beginning leaves what is held populated. -/
theorem populated_begin (w : Window) (now : Int64) (h : w.state.Populated) :
    (w.begin now).Populated := by
  unfold WindowState.Populated
  rw [holdings_begin]
  exact h

/-- After a scan of new views the log keeps to the range as before. -/
theorem confined_ingest (hlog : Confined log) (state : WindowState) (now : Int64)
    (lookup : Lookup) : Confined (ingest state now log lookup).log := by
  rcases ingest_log state now log lookup with hsame | ⟨range, hasked⟩
  · rwa [hsame]
  · rw [hasked]
    exact hlog.query range

/-- A scan of new views changes nothing, or commits the sum of some views of its range. -/
theorem ingest_cases (hlog : Confined log) (hhigh : state.high = some high) (now : Int64)
    (lookup : Lookup) :
    (ingest state now log lookup).state = state ∨
      ∃ views s, Intake.SumsUp lookup views s ∧
        (∀ v ∈ views, high < v.cursor ∧ v.cursor ≤ Cursor.ceiling now) ∧
        (ingest state now log lookup).state = state.commitIntake s := by
  have hend := ingestEnd state now log lookup
  generalize ingest state now log lookup = done at hend ⊢
  cases hend with
  | idle => exact .inl rfl
  | unanswered => exact .inl rfl
  | abandoned => exact .inl rfl
  | @complete high' _ scan s hhigh' _ hquery hread =>
    obtain rfl : high' = high := Option.some.inj (hhigh'.symm.trans hhigh)
    refine .inr ⟨scan.views, s, Intake.sumsUp_of_complete hread, ?_, rfl⟩
    exact hlog [] (Intake.range high' now) scan (by rw [askedFor, List.foldl_nil, hquery])
      (readScan_eq_complete_iff.mp hread).1

/-- A scan of expired views changes nothing, or commits the sum of some views of its range. -/
theorem prune_cases (hlog : Confined log) (h : state.Between low high) (start : Int64) :
    (prune state start log).state = state ∨
      ∃ views s, TakeBack.SumsUp state views s ∧
        (∀ v ∈ views, low < v.cursor ∧ v.cursor ≤ high) ∧
        (prune state start log).state = state.commitTakeBack s := by
  have hend := pruneEnd state start log
  generalize prune state start log = done at hend ⊢
  cases hend with
  | idle => exact .inl rfl
  | unanswered => exact .inl rfl
  | abandoned => exact .inl rfl
  | @complete low' high' _ scan s hlow' hhigh' _ hquery hread =>
    obtain rfl : low' = low := Option.some.inj (hlow'.symm.trans h.low_eq)
    obtain rfl : high' = high := Option.some.inj (hhigh'.symm.trans h.high_eq)
    refine .inr ⟨scan.views, s, TakeBack.sumsUp_of_complete hread, fun v hv => ?_, rfl⟩
    have hmem := hlog [] (TakeBack.range low' high' start) scan
      (by rw [askedFor, List.foldl_nil, hquery]) (readScan_eq_complete_iff.mp hread).1 v hv
    obtain ⟨hlow, hhigh, -⟩ := mem_takeBack_range.mp hmem
    exact ⟨hlow, hhigh⟩

/-- A scan of new views moves the high watermark forward, to a view that is not in the future. -/
theorem ingest_between (hlog : Confined log) (h : state.Between low high)
    (hpopulated : state.Populated) (now : Int64) (lookup : Lookup) :
    (ingest state now log lookup).state.Populated ∧
      ∃ high', (ingest state now log lookup).state.Between low high' ∧ high ≤ high' ∧
        (high' = high ∨ high' ≤ Cursor.ceiling now) := by
  rcases ingest_cases hlog h.high_eq now lookup with hstate | ⟨views, s, hs, hviews, hstate⟩
  · rw [hstate]
    exact ⟨hpopulated, high, h, le_refl _, .inl rfl⟩
  · rw [hstate]
    have hforward : high ≤ reach views high := start_le_reach fun v hv => (hviews v hv).1
    refine ⟨hpopulated.commitIntake hs, reach views high,
      ⟨h.low_eq, hs.high_eq_reach h.high_eq, le_trans h.low_le_high hforward⟩, hforward, ?_⟩
    refine (reach_eq_or views high).imp_right ?_
    rintro ⟨v, hv, hreach⟩
    exact hreach ▸ (hviews v hv).2

/-- A scan of expired views moves the low watermark forward, no further than the high one. -/
theorem prune_between (hlog : Confined log) (h : state.Between low high)
    (hpopulated : state.Populated) (start : Int64) :
    (prune state start log).state.Populated ∧
      ∃ low', (prune state start log).state.Between low' high ∧ low ≤ low' := by
  rcases prune_cases hlog h start with hstate | ⟨views, s, hs, hviews, hstate⟩
  · rw [hstate]
    exact ⟨hpopulated, low, h, le_refl _⟩
  · rw [hstate]
    refine ⟨hpopulated.commitTakeBack s, reach views low,
      ⟨hs.low_eq_reach h.low_eq, h.high_eq, ?_⟩, start_le_reach fun v hv => (hviews v hv).1⟩
    rcases reach_eq_or views low with hreach | ⟨v, hv, hreach⟩
    · rw [hreach]
      exact h.low_le_high
    · rw [← hreach]
      exact (hviews v hv).2

end Window

namespace WindowState

/-- The state after a move of the window. -/
def move (state : WindowState) (m : Window.Move σ) : WindowState :=
  (Window.advance { seconds := m.seconds, state } m.now m.log m.lookup).window.state

/-- The state after several moves. -/
def moves (state : WindowState) (ms : List (Window.Move σ)) : WindowState := ms.foldl move state

/-- Nothing is kept that holds no views, and the watermarks are both absent or in order. -/
structure Guarded (state : WindowState) : Prop where
  populated : state.Populated
  watermarks : state.Unbegun ∨ ∃ low high, state.Between low high

namespace Guarded

variable {state : WindowState}

/-- After a move both watermarks are there. Neither has gone back, and the high one has not gone
past both its old place and the present. -/
theorem move (h : state.Guarded) (m : Window.Move σ) :
    (state.move m).Populated ∧ state.Forward (state.move m) ∧
      ∃ low high, (state.move m).Between low high ∧
        ∀ old ∈ state.high, high ≤ old ∨ high ≤ Cursor.ceiling m.now := by
  let w : Window := { seconds := m.seconds, state }
  obtain ⟨low, high, hbegun, hbegin, hold⟩ := w.begin_between m.now h.watermarks
  obtain ⟨hpopulated, high', hingested, hhigh, hpresent⟩ :=
    Window.ingest_between m.confined hbegun (w.populated_begin m.now h.populated) m.now m.lookup
  have hlog := Window.confined_ingest m.confined (w.begin m.now) m.now m.lookup
  obtain ⟨hpruned, low', hdone, hlow⟩ :=
    Window.prune_between hlog hingested hpopulated (w.startAt m.now)
  have hforward : (w.begin m.now).Forward (state.move m) := hbegun.forward hdone hlow hhigh
  refine ⟨hpruned, hbegin.trans hforward, low', high', hdone, fun old hmem => ?_⟩
  refine hpresent.imp_left fun hsame => ?_
  rw [hsame, hold old hmem]

/-- A move leaves a state guarded. -/
theorem step (h : state.Guarded) (m : Window.Move σ) : (state.move m).Guarded := by
  obtain ⟨hpopulated, -, low, high, hbetween, -⟩ := h.move m
  exact ⟨hpopulated, .inr ⟨low, high, hbetween⟩⟩

/-- Along several moves the watermarks only move forward. -/
theorem moves (h : state.Guarded) (ms : List (Window.Move σ)) :
    (state.moves ms).Guarded ∧ state.Forward (state.moves ms) := by
  induction ms generalizing state with
  | nil => exact ⟨h, .refl state⟩
  | cons m rest ih =>
    obtain ⟨hrest, hforward⟩ := ih (h.step m)
    exact ⟨hrest, (h.move m).2.1.trans hforward⟩

end Guarded

/-- Whatever counters and segments an accepted snapshot has, and whatever times, window lengths,
logs and repositories the window meets after it was rebuilt, no boost is kept without segments and
no segment without views. A move leaves both watermarks there and in order, with the high one no
further than its old place or the present, whichever is later. No watermark ever goes back. -/
theorem moves_safe {snapshot : Snapshot} {state : WindowState}
    (haccepted : snapshot.toState = .ok state) (past : List (Window.Move σ)) :
    (state.moves past).Populated ∧
      (∀ m : Window.Move σ, ∃ low high, ((state.moves past).move m).Between low high ∧
        ∀ old ∈ (state.moves past).high, high ≤ old ∨ high ≤ Cursor.ceiling m.now) ∧
      ∀ more : List (Window.Move σ),
        (state.moves past).Forward ((state.moves past).moves more) := by
  obtain ⟨-, -, hpopulated, hwatermarks⟩ := Snapshot.of_toState haccepted
  have hpast : (state.moves past).Guarded :=
    (Guarded.moves ⟨hpopulated, hwatermarks⟩ past).1
  exact ⟨hpast.populated, fun m => (hpast.move m).2.2, fun more => (hpast.moves more).2⟩

/-- A snapshot of counters that no window has had: the segments of a boost overlap and end past the
high watermark, and a bucket has a total that no segment accounts for. -/
def overlapping : Snapshot :=
  { seconds := 1, low := some ⟨5, 1⟩, high := some ⟨9, 1⟩
    totals := [(⟨.sidebar, .safe⟩, 3)]
    holdings := [("a", { segments :=
      [⟨⟨.newsfeed, false⟩, ⟨6, 1⟩, ⟨12, 1⟩, 2⟩, ⟨⟨.newsfeed, true⟩, ⟨7, 1⟩, ⟨8, 1⟩, 1⟩] })] }

/-- The log that the rebuilt window meets; one of its views came late. -/
def metLog : Memory.Log :=
  Memory.Log.filing [.filed ⟨7, 1⟩ "urn:boost:newsfeed:a", .filed ⟨15, 1⟩ "urn:boost:newsfeed:a"]

/-- The window is moved past everything, then to a time long gone. Its high watermark stays. -/
theorem moves_safe_overlapping :
    let forth : Window.Move Memory.Log := ⟨0, 20, metLog, inNewsfeed, HonestSource.confined _⟩
    let back : Window.Move Memory.Log := ⟨-1, 3, metLog, inNewsfeed, HonestSource.confined _⟩
    ∃ state, overlapping.toState = .ok state ∧
      ((state.moves [forth, back]).low, (state.moves [forth, back]).high) =
        (some ⟨15, 1⟩, some ⟨15, 1⟩) ∧
      (state.moves [forth]).Populated ∧
      (∀ m : Window.Move Memory.Log, ∃ low high, ((state.moves [forth]).move m).Between low high ∧
        ∀ old ∈ (state.moves [forth]).high, high ≤ old ∨ high ≤ Cursor.ceiling m.now) ∧
      ∀ more : List (Window.Move Memory.Log),
        (state.moves [forth]).Forward ((state.moves [forth]).moves more) :=
  ⟨_, rfl, by decide +kernel, moves_safe (rfl : overlapping.toState = .ok _) _⟩

end WindowState

end Pacing
