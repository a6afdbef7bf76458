import Pacing.Proofs.PhaseSemantics

/-!
# A window whose log grows only past what it has read

While the log changes only past the high watermark, the views between the place where the window
began and the high watermark are exactly the views that were read. A take-back then finds nothing
but what was read, so that the accounts of the window are in order after every step.
-/

namespace Pacing

open HonestSource (held)

section Scans

variable {σ : Type} [ViewSource σ] [HonestSource σ] {state : WindowState} {low high : Cursor}

/-- A scan of all views past a cursor up to some limit reads them all up to the last one. -/
private theorem eq_filter_le_reach {views logged : List View} {Q : Cursor → Prop} [DecidablePred Q]
    (hdown : ∀ a b, a ≤ b → Q b → Q a)
    (hviews : views = logged.filter fun v => low < v.cursor ∧ Q v.cursor)
    (hrising : views.Pairwise (·.cursor < ·.cursor)) :
    views = logged.filter fun v => low < v.cursor ∧ v.cursor ≤ reach views low := by
  have hmem (v : View) : v ∈ views ↔ v ∈ logged ∧ low < v.cursor ∧ Q v.cursor := by
    rw [hviews, List.mem_filter, decide_eq_true_eq]
  refine hviews.trans (List.filter_congr fun v hv => ?_)
  rw [decide_eq_decide, and_congr_right_iff]
  intro hlow
  constructor
  · intro hQ
    exact le_reach hrising ((hmem v).mpr ⟨hv, hlow, hQ⟩)
  · intro hreach
    rcases List.eq_nil_or_concat' views with hnil | ⟨front, last, hlast⟩
    · rw [hnil, reach_nil] at hreach
      exact absurd hlow (not_lt.mpr hreach)
    · rw [hlast, reach_of_getLast? List.getLast?_concat] at hreach
      exact hdown _ _ hreach ((hmem last).mp (by simp [hlast])).2.2

/-- Up to where it comes, an intake reads every view past the high watermark. -/
theorem freshViews_eq_filter (hhigh : state.high = some high) (now : Int64) (log : σ)
    (lookup : Lookup) : Window.freshViews state now log lookup = (held log).filter fun v =>
      high < v.cursor ∧ v.cursor ≤ reach (Window.freshViews state now log lookup) high := by
  obtain ⟨_, s, hs, _⟩ := Window.ingest_spec state now log lookup
  cases hresult : (Window.ingest state now log lookup).result with
  | error e =>
    rw [Window.freshViews_of_error hresult, reach_nil, eq_comm, List.filter_eq_nil_iff]
    intro v _
    simp
  | ok tally =>
    refine eq_filter_le_reach (Q := fun c => c.ts ≤ now) (fun a b hab hb => ?_)
      (Window.freshViews_of_ok hhigh hresult) hs.rising
    rw [← Cursor.le_ceiling_iff] at hb ⊢
    exact le_trans hab hb

/-- Up to where it comes, a take-back reads every view past the low watermark. -/
theorem staleViews_eq_filter (hlow : state.low = some low) (hhigh : state.high = some high)
    (start : Int64) (log : σ) : Window.staleViews state start log = (held log).filter fun v =>
      low < v.cursor ∧ v.cursor ≤ reach (Window.staleViews state start log) low := by
  obtain ⟨_, s, hs, _⟩ := Window.prune_spec state start log
  cases hresult : (Window.prune state start log).result with
  | error e =>
    rw [Window.staleViews_of_error hresult, reach_nil, eq_comm, List.filter_eq_nil_iff]
    intro v _
    simp
  | ok tally =>
    exact eq_filter_le_reach (Q := fun c => c ≤ high ∧ c < Cursor.floor start)
      (fun a b hab hb => ⟨le_trans hab hb.1, lt_of_le_of_lt hab hb.2⟩)
      (Window.staleViews_of_ok hlow hhigh hresult) hs.rising

end Scans

/-- A take-back over a log that still holds all that was read, and in which it finds nothing else
in a segment, reads what it must. -/
theorem Accounts.expires {σ : Type} [ViewSource σ] [HonestSource σ] {state : WindowState}
    {readings : List Reading} {low high : Cursor} {start : Int64} {log : σ}
    (h : Accounts state readings low high) (hkept : ∀ r ∈ readings, r.view ∈ held log)
    (hread : ∀ v ∈ Window.staleViews state start log, (TakeBack.countedIn? state v).isSome →
      ∃ r ∈ readings, r.view = v) :
    Expires state readings low high (Window.staleViews state start log) where
  past v hv := (Window.of_mem_staleViews h.low_eq h.high_eq hv).2.1
  below v hv := (Window.of_mem_staleViews h.low_eq h.high_eq hv).2.2.1
  complete r hr hlow hreach := by
    rw [staleViews_eq_filter h.low_eq h.high_eq, List.mem_filter]
    exact ⟨hkept r hr, by simpa using ⟨hlow, hreach⟩⟩
  read := hread

/-- The views between two cursors lie before or after any cursor between them. -/
private theorem filter_between_perm (logged : List View) {a b c : Cursor} (hab : a ≤ b)
    (hbc : b ≤ c) : (logged.filter fun v => a < v.cursor ∧ v.cursor ≤ c).Perm
      ((logged.filter fun v => a < v.cursor ∧ v.cursor ≤ b) ++
        logged.filter fun v => b < v.cursor ∧ v.cursor ≤ c) := by
  have hsplit := List.filter_append_perm (fun v : View => v.cursor ≤ b)
    (logged.filter fun v => a < v.cursor ∧ v.cursor ≤ c)
  rw [List.filter_filter, List.filter_filter] at hsplit
  refine hsplit.symm.trans (List.Perm.of_eq ?_)
  congr 1
  · refine List.filter_congr fun v _ => ?_
    rw [← Bool.decide_and, decide_eq_decide]
    exact ⟨fun hv => ⟨hv.2.1, hv.1⟩, fun hv => ⟨hv.2, hv.1, le_trans hv.2 hbc⟩⟩
  · refine List.filter_congr fun v _ => ?_
    rw [← decide_not, ← Bool.decide_and, decide_eq_decide, not_le]
    exact ⟨fun hv => ⟨hv.1, hv.2.2⟩, fun hv => ⟨hv.1, lt_of_le_of_lt hab hv.1, hv.2⟩⟩

/-- Logs that are alike up to a cursor are alike up to every cursor before it. -/
theorem filter_le_eq_of_le {logged logged' : List View} {a b : Cursor} (hab : a ≤ b)
    (halike : logged'.filter (·.cursor ≤ b) = logged.filter (·.cursor ≤ b)) :
    logged'.filter (·.cursor ≤ a) = logged.filter (·.cursor ≤ a) := by
  have hbelow (views : List View) : views.filter (·.cursor ≤ a) =
      (views.filter (·.cursor ≤ b)).filter (·.cursor ≤ a) := by
    rw [List.filter_filter]
    refine List.filter_congr fun v _ => ?_
    rw [← Bool.decide_and, decide_eq_decide]
    exact ⟨fun hv => ⟨hv, le_trans hv hab⟩, And.left⟩
  rw [hbelow, halike, ← hbelow]

/-- The accounts are in order, and what was read is what the log holds between the place where the
window began and the high watermark. -/
structure Conserved (state : WindowState) (readings : List Reading) (logged : List View)
    (start low high : Cursor) : Prop where
  accounts : Accounts state readings low high
  start_le : start ≤ low
  logged_perm : (logged.filter fun v => start < v.cursor ∧ v.cursor ≤ high).Perm
    (readings.map Reading.view)

namespace Conserved

variable {σ : Type} [ViewSource σ] [HonestSource σ] {state : WindowState} {log : σ}
  {readings : List Reading} {logged : List View} {start low high : Cursor}

/-- The views of the readings are the logged views past the start and up to the high watermark. -/
theorem mem_logged_iff (h : Conserved state readings logged start low high) {v : View} :
    (v ∈ logged ∧ start < v.cursor ∧ v.cursor ≤ high) ↔ ∃ r ∈ readings, r.view = v := by
  have hperm := h.logged_perm.mem_iff (a := v)
  simpa using hperm

/-- Every reading lies past the start. -/
theorem start_lt (h : Conserved state readings logged start low high) {r : Reading}
    (hr : r ∈ readings) : start < r.cursor :=
  (h.mem_logged_iff.mpr ⟨r, hr, rfl⟩).2.1

/-- No more was read than the log holds. -/
theorem length_le (h : Conserved state readings logged start low high) :
    readings.length ≤ logged.length := by
  have hlength := h.logged_perm.length_eq
  rw [List.length_map] at hlength
  rw [← hlength]
  exact List.length_filter_le _ _

/-- Counting logged views up to the high watermark is counting what was read. -/
theorem countP_logged (h : Conserved state readings logged start low high) {P : View → Prop}
    [DecidablePred P] (hP : ∀ v ∈ logged, P v → start < v.cursor ∧ v.cursor ≤ high) :
    logged.countP (fun v => P v) = readings.countP fun r => P r.view := by
  have hread : logged.countP (fun v => P v) =
      (logged.filter fun v => start < v.cursor ∧ v.cursor ≤ high).countP fun v => P v := by
    rw [List.countP_filter]
    refine List.countP_congr fun v hv => ?_
    simpa using hP v hv
  rw [hread, h.logged_perm.countP_eq, List.countP_map]
  rfl

/-- A scan of new views extends what was read as far as it comes. -/
theorem ingest (h : Conserved state readings (held log) start low high) (now : Int64)
    (lookup : Lookup) :
    Conserved (Window.ingest state now log lookup).state
      (readings ++ (Window.freshViews state now log lookup).map (Reading.under lookup))
      (held (Window.ingest state now log lookup).log) start low
      (reach (Window.freshViews state now log lookup) high) := by
  have hstart : start ≤ high := le_trans h.start_le h.accounts.low_le_high
  have hhigh : high ≤ reach (Window.freshViews state now log lookup) high :=
    start_le_reach fun v hv => (Window.of_mem_freshViews h.accounts.high_eq hv).2.1
  refine ⟨h.accounts.ingest now log lookup, h.start_le, ?_⟩
  rw [(Window.ingest_spec state now log lookup).1]
  have hviews : (readings ++
      (Window.freshViews state now log lookup).map (Reading.under lookup)).map Reading.view =
        readings.map Reading.view ++ Window.freshViews state now log lookup := by
    simp [Function.comp_def, Reading.under]
  rw [hviews]
  refine (filter_between_perm (held log) hstart hhigh).trans ?_
  rw [← freshViews_eq_filter h.accounts.high_eq]
  exact h.logged_perm.append_right _

/-- A scan of expired views reads what it must. -/
theorem expires (h : Conserved state readings (held log) start low high) (bound : Int64) :
    Accounts.Expires state readings low high (Window.staleViews state bound log) := by
  refine h.accounts.expires (fun r hr => (h.mem_logged_iff.mpr ⟨r, hr, rfl⟩).1) fun v hv _ => ?_
  obtain ⟨hlogged, hlow, hhigh, _⟩ :=
    Window.of_mem_staleViews h.accounts.low_eq h.accounts.high_eq hv
  exact h.mem_logged_iff.mp ⟨hlogged, lt_of_le_of_lt h.start_le hlow, hhigh⟩

/-- A scan of expired views takes back what was read and leaves what was read as it is. -/
theorem prune (h : Conserved state readings (held log) start low high) (bound : Int64) :
    Conserved (Window.prune state bound log).state readings
      (held (Window.prune state bound log).log) start
      (reach (Window.staleViews state bound log) low) high := by
  have hexpires := h.expires bound
  refine ⟨h.accounts.prune bound log hexpires,
    le_trans h.start_le (start_le_reach hexpires.past), ?_⟩
  rw [(Window.prune_spec state bound log).1]
  exact h.logged_perm

/-- A log that changes only past the high watermark still holds what was read. -/
theorem settled (h : Conserved state readings logged start low high) {logged' : List View}
    (hsettled : logged'.filter (·.cursor ≤ high) = logged.filter (·.cursor ≤ high)) :
    Conserved state readings logged' start low high := by
  refine ⟨h.accounts, h.start_le, ?_⟩
  have hlogged : (logged'.filter fun v => start < v.cursor ∧ v.cursor ≤ high) =
      logged.filter fun v => start < v.cursor ∧ v.cursor ≤ high := by
    have hsplit (views : List View) : (views.filter fun v => start < v.cursor ∧ v.cursor ≤ high) =
        (views.filter (·.cursor ≤ high)).filter (start < ·.cursor) := by
      rw [List.filter_filter]
      exact List.filter_congr fun v _ => Bool.decide_and _ _
    rw [hsplit, hsplit, hsettled]
  rw [hlogged]
  exact h.logged_perm

/-- Any other state that agrees conserves what was read too. -/
theorem agrees (h : Conserved state readings logged start low high) {state' : WindowState}
    (hagrees : state.Agrees state') : Conserved state' readings logged start low high :=
  ⟨h.accounts.agrees hagrees, h.start_le, h.logged_perm⟩

/-- A window that begins has read nothing. -/
theorem begin (w : Window) (hstate : w.state = {}) (logged : List View) (now : Int64) :
    Conserved (w.begin now) [] logged (Cursor.floor (w.startAt now))
      (Cursor.floor (w.startAt now)) (Cursor.floor (w.startAt now)) := by
  refine ⟨Accounts.begin w hstate now, le_refl _, ?_⟩
  rw [List.map_nil, List.perm_nil, List.filter_eq_nil_iff]
  intro v _
  simp

end Conserved

namespace Chronicle

section

variable {σ : Type} {c : Chronicle σ}

/-- A view that was read resolved as its reading says. -/
theorem resolution_of_mem (hnodup : (c.readings.map Reading.view).Nodup) {r : Reading}
    (hr : r ∈ c.readings) : c.resolution r.view = r.profile := by
  have hsome : (c.readings.find? (·.view = r.view)).isSome := by
    rw [List.find?_isSome]
    exact ⟨r, hr, by simp⟩
  obtain ⟨found, hfound⟩ := Option.isSome_iff_exists.mp hsome
  have hview : found.view = r.view := by simpa using List.find?_some hfound
  have hsame : found = r :=
    List.inj_on_of_nodup_map hnodup (List.mem_of_find?_eq_some hfound) hr hview
  simp [resolution, hfound, hsame]

/-- A view that resolved has been read. -/
theorem exists_reading_of_resolution {v : View} (hv : c.resolution v ≠ none) :
    ∃ r ∈ c.readings, r.view = v := by
  cases hfound : c.readings.find? (·.view = v) with
  | none => simp [resolution, hfound] at hv
  | some r => exact ⟨r, List.mem_of_find?_eq_some hfound, by simpa using List.find?_some hfound⟩

/-- Counting logged views by what they resolved to is counting what was read. -/
theorem countP_resolved {start low high : Cursor} {logged : List View}
    (h : Conserved c.window.state c.readings logged start low high)
    (P : View → Option Profile → Prop) [∀ v p, Decidable (P v p)] (hP : ∀ v, ¬P v none) :
    logged.countP (fun v => P v (c.resolution v)) =
      c.readings.countP fun r => P r.view r.profile := by
  rw [h.countP_logged fun v _ hv => ?_]
  · refine List.countP_congr fun r hr => ?_
    simp [resolution_of_mem h.accounts.nodup_views hr]
  · have hresolved : c.resolution v ≠ none := fun hnone => hP v (hnone ▸ hv)
    exact (h.mem_logged_iff.mpr (exists_reading_of_resolution hresolved)).2

/-- A window that has not begun is rebuilt as it is. -/
theorem restart_of_empty (hstate : c.window.state = {}) (seconds : Int64) :
    c.restart seconds = { c with window := { seconds } } := by
  simp [restart, hstate, Snapshot.toState_capture_empty]

/-- A window in a tidy state is rebuilt in one that agrees. -/
theorem restart_of_tidy (htidy : c.window.state.Tidy) (seconds : Int64) :
    ∃ state, c.restart seconds = { c with window := { seconds, state } } ∧
      c.window.state.Agrees state := by
  obtain ⟨restored, hrestored, hagrees⟩ := Snapshot.toState_capture htidy c.window.seconds 0
  exact ⟨restored, by simp [restart, hrestored], hagrees⟩

end

variable {σ : Type} [ViewSource σ] [HonestSource σ] {c : Chronicle σ}

/-- A window that has not begun has read nothing; one that has conserves what was read. -/
def InOrder (c : Chronicle σ) : Prop :=
  (c.window.state = {} ∧ c.readings = []) ∨
    ∃ start low high, Conserved c.window.state c.readings (held c.log) start low high

namespace InOrder

/-- Every window conserves what was read once it has begun. -/
theorem begin (h : c.InOrder) (now : Int64) : ∃ start low high,
    Conserved (c.window.begin now) c.readings (held c.log) start low high := by
  rcases h with ⟨hstate, hreadings⟩ | ⟨start, low, high, h⟩
  · rw [hreadings]
    exact ⟨_, _, _, Conserved.begin c.window hstate (held c.log) now⟩
  · rw [h.accounts.begin_eq]
    exact ⟨start, low, high, h⟩

/-- An advance leaves accounts that conserve what was logged. -/
theorem advance (h : c.InOrder) (now : Int64) (lookup : Lookup) : ∃ start low high,
    Conserved (c.advance now lookup).window.state (c.advance now lookup).readings
      (held (c.advance now lookup).log) start low high := by
  obtain ⟨start, low, high, hbegun⟩ := h.begin now
  exact ⟨_, _, _, (hbegun.ingest now lookup).prune (c.window.startAt now)⟩

/-- A restart from the snapshot of a chronicle in order leaves it in order. -/
theorem restart (h : c.InOrder) (seconds : Int64) : (c.restart seconds).InOrder := by
  rcases h with ⟨hstate, hreadings⟩ | ⟨start, low, high, h⟩
  · rw [restart_of_empty hstate]
    exact .inl ⟨rfl, hreadings⟩
  · obtain ⟨restored, hrestart, hagrees⟩ := restart_of_tidy h.accounts.tidy seconds
    rw [hrestart]
    exact .inr ⟨start, low, high, h.agrees hagrees⟩

/-- Every step that changes the log past the high watermark alone keeps a chronicle in order. -/
theorem step (h : c.InOrder) {a : Step σ} (ha : c.Settled a) : (c.step a).InOrder := by
  cases a with
  | log log =>
    rcases h with h | ⟨start, low, high, h⟩
    · exact .inl h
    · exact .inr ⟨start, low, high, h.settled (ha high h.accounts.high_eq)⟩
  | advance now lookup => exact .inr (h.advance now lookup)
  | restart seconds => exact h.restart seconds

/-- A window is in order after every run that changes the log only past the high watermark. -/
theorem run {seconds : Int64} {log : σ} {steps : List (Step σ)}
    (hsteps : Along Chronicle.step Settled (start seconds log) steps) :
    ((start seconds log).run steps).InOrder :=
  hsteps.preserves (fun _ _ ha h => h.step ha) (.inl ⟨rfl, rfl⟩)

end InOrder

end Chronicle

end Pacing
