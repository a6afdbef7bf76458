import Pacing.Engine
import Pacing.Proofs.RestartTransparency

/-!
# What the reports of the scans add up to

Every advance reports how many views its two scans have read and counted. A view is read by one
complete intake and by one complete take-back at most, and the take-back finds it exactly when it
was counted. So the reports of a whole run add up to what the log holds between the place where the
window began and its watermarks, and what was counted but not taken back is what the window holds.
-/

namespace Pacing

open HonestSource (held)

/-- The views that a finished scan has counted, or taken back. -/
def Engine.countedIn : Except ScanError Tally → Nat
  | .ok tally => tally.counted
  | .error _ => 0

open Engine (eventsIn countedIn)

namespace Window

variable {σ : Type} [ViewSource σ] [HonestSource σ]

/-- A scan of new views reports the views that it read and those of boosts that it found. -/
theorem report_ingest (state : WindowState) (now : Int64) (log : σ) (lookup : Lookup) :
    eventsIn (ingest state now log lookup).result = (freshViews state now log lookup).length ∧
      countedIn (ingest state now log lookup).result =
        (freshViews state now log lookup).countP fun v =>
          (Reading.under lookup v).profile.isSome := by
  obtain ⟨-, ⟨e, hresult, -⟩ | ⟨s, hread, hresult, -⟩⟩ := ingest_outcome state now log lookup
  · rw [freshViews_of_error hresult, hresult]
    exact ⟨rfl, rfl⟩
  · rw [hresult, eventsIn, countedIn, (Intake.sumsUp_of_readWhile hread).tally_eq]
    exact ⟨rfl, rfl⟩

/-- A scan of expired views reports the views that it read and those that it found counted. -/
theorem report_prune (state : WindowState) (start : Int64) (log : σ) :
    eventsIn (prune state start log).result = (staleViews state start log).length ∧
      countedIn (prune state start log).result =
        (staleViews state start log).countP fun v => (TakeBack.countedIn? state v).isSome := by
  obtain ⟨-, ⟨e, hresult, -⟩ | ⟨s, hread, hresult, -⟩⟩ := prune_outcome state start log
  · rw [staleViews_of_error hresult, hresult]
    exact ⟨rfl, rfl⟩
  · rw [hresult, eventsIn, countedIn, (TakeBack.sumsUp_of_readWhile hread).tally_eq]
    exact ⟨rfl, rfl⟩

end Window

namespace Conserved

variable {σ : Type} [ViewSource σ] [HonestSource σ] {state : WindowState} {log : σ}
  {readings : List Reading} {start low high : Cursor}

/-- All that an intake reads lies past the low watermark. -/
theorem countP_freshViews (h : Conserved state readings (held log) start low high) (now : Int64)
    (lookup : Lookup) (P : Reading → Prop) [DecidablePred P] :
    let fresh := (Window.freshViews state now log lookup).map (Reading.under lookup)
    (readings ++ fresh).countP (fun r => P r ∧ low < r.cursor) =
      readings.countP (fun r => P r ∧ low < r.cursor) + fresh.countP fun r => P r := by
  intro fresh
  rw [List.countP_append]
  congr 1
  refine List.countP_congr fun r hr => ?_
  obtain ⟨v, hv, rfl⟩ := List.mem_map.mp hr
  have hpast : low < (Reading.under lookup v).cursor :=
    lt_of_le_of_lt h.accounts.low_le_high
      (Window.of_mem_freshViews h.accounts.high_eq hv).2.1
  simp [hpast]

/-- Of what was read past the low watermark, a take-back reads everything up to where it comes. -/
theorem countP_staleViews (h : Conserved state readings (held log) start low high) (bound : Int64)
    {P : Reading → Prop} {Q : View → Prop} [DecidablePred P] [DecidablePred Q]
    (hPQ : ∀ r ∈ readings, low < r.cursor → (Q r.view ↔ P r)) :
    let stale := Window.staleViews state bound log
    readings.countP (fun r => P r ∧ low < r.cursor) =
      stale.countP (fun v => Q v) + readings.countP fun r => P r ∧ reach stale low < r.cursor := by
  intro stale
  have hlow : low ≤ reach stale low := start_le_reach (h.expires bound).past
  have hreach : reach stale low ≤ high := (h.prune bound).accounts.low_le_high
  have hlogged := h.countP_logged
    (P := fun v => Q v ∧ low < v.cursor ∧ v.cursor ≤ reach stale low)
    fun v _ hv => ⟨lt_of_le_of_lt h.start_le hv.2.1, le_trans hv.2.2 hreach⟩
  have hstale : stale.countP (fun v => Q v) =
      readings.countP fun r => P r ∧ low < r.cursor ∧ r.cursor ≤ reach stale low := by
    calc stale.countP (fun v => Q v)
        = (held log).countP fun v => Q v ∧ low < v.cursor ∧ v.cursor ≤ reach stale low := by
          conv_lhs => rw [show stale = _ from
            staleViews_eq_filter h.accounts.low_eq h.accounts.high_eq bound log]
          rw [List.countP_filter]
          exact List.countP_congr fun v _ => by simp [stale]
      _ = readings.countP fun r =>
            Q r.view ∧ low < r.cursor ∧ r.cursor ≤ reach stale low := hlogged
      _ = _ := by
          refine List.countP_congr fun r hr => ?_
          simp only [decide_eq_true_eq]
          exact and_congr_left fun hpast => hPQ r hr hpast.1
  rw [hstale]
  exact countP_past_eq_add hlow readings P

/-- What was read lies past the low watermark or among the logged views up to there. -/
theorem length_eq_add (h : Conserved state readings (held log) start low high) :
    readings.length = (held log).countP (fun v => start < v.cursor ∧ v.cursor ≤ low) +
      readings.countP fun r => low < r.cursor := by
  have hlogged := h.countP_logged (P := fun v => start < v.cursor ∧ v.cursor ≤ low)
    fun v _ hv => ⟨hv.1, le_trans hv.2 h.accounts.low_le_high⟩
  rw [hlogged, ← countP_or]
  · refine (List.countP_eq_length.mpr fun r hr => ?_).symm
    have hstart : start < r.view.cursor := h.start_lt hr
    by_cases hlow : low < r.cursor
    · simp [hlow]
    · have hle : r.view.cursor ≤ low := not_lt.mp hlow
      simp [hstart, hle]
  · exact fun r _ hr => not_lt.mpr hr.2

end Conserved

/-- The views of everyone at either location are all counted readings past the low watermark: every
counted view is counted for everyone at one location. -/
theorem Accounts.total_general_add {state : WindowState} {readings : List Reading}
    {low high : Cursor} (h : Accounts state readings low high) (hsize : readings.length < 2 ^ 64) :
    (state.total ⟨.newsfeed, .general⟩).toNat + (state.total ⟨.sidebar, .general⟩).toNat =
      readings.countP fun r => r.profile.isSome ∧ low < r.cursor := by
  have hgeneral (r : Reading) (l : Location) :
      (⟨l, .general⟩ : Bucket) ∈ r.buckets ↔ ∃ p ∈ r.profile, p.location = l := by
    cases hprofile : r.profile <;>
      simp [Reading.buckets, hprofile, Profile.general_mem_buckets_iff]
  rw [h.totals hsize, h.totals hsize, ← countP_or]
  · refine List.countP_congr fun r _ => ?_
    simp only [hgeneral, decide_eq_true_eq]
    cases r.profile with
    | none => simp
    | some p => cases hl : p.location <;> simp [hl]
  · rintro r _ ⟨hnewsfeed, _⟩ ⟨hsidebar, _⟩
    obtain ⟨p, hp, hl⟩ := (hgeneral r _).mp hnewsfeed
    obtain ⟨p', hp', hl'⟩ := (hgeneral r _).mp hsidebar
    rw [Option.mem_unique hp' hp, hl] at hl'
    cases hl'

/-- The reports of several scans of either kind agree with what was read: everything was reported
once when it was read, and once more when the low watermark was moved past it. -/
structure Reported (ingests prunes : List (Except ScanError Tally)) (readings : List Reading)
    (low : Cursor) : Prop where
  ingested : (ingests.map eventsIn).sum = readings.length
  counted : (ingests.map countedIn).sum = readings.countP fun r => r.profile.isSome
  pruned : (prunes.map eventsIn).sum + readings.countP (fun r => low < r.cursor) = readings.length
  takenBack : (prunes.map countedIn).sum +
    readings.countP (fun r => r.profile.isSome ∧ low < r.cursor) =
      readings.countP fun r => r.profile.isSome

namespace Reported

variable {σ : Type} [ViewSource σ] [HonestSource σ] {state : WindowState} {log : σ}
  {ingests prunes : List (Except ScanError Tally)} {readings : List Reading}
  {start low high : Cursor}

/-- An intake reports what it adds to the readings. -/
theorem ingest (h : Reported ingests prunes readings low)
    (hconserved : Conserved state readings (held log) start low high) (now : Int64)
    (lookup : Lookup) :
    Reported (ingests ++ [(Window.ingest state now log lookup).result]) prunes
      (readings ++ (Window.freshViews state now log lookup).map (Reading.under lookup)) low := by
  obtain ⟨hevents, hcounted⟩ := Window.report_ingest state now log lookup
  have hpast := hconserved.countP_freshViews now lookup fun _ => True
  have hpast' := hconserved.countP_freshViews now lookup fun r => r.profile.isSome
  simp only [true_and, decide_true, List.countP_true, Bool.decide_eq_true] at hpast hpast'
  refine ⟨?_, ?_, ?_, ?_⟩
  · simp [h.ingested, hevents]
  · simp [h.counted, hcounted, Function.comp_def]
  · rw [hpast, ← Nat.add_assoc, h.pruned, List.length_append]
  · rw [hpast', ← Nat.add_assoc, h.takenBack, List.countP_append]

/-- A take-back reports what it moves the low watermark past. -/
theorem prune (h : Reported ingests prunes readings low)
    (hconserved : Conserved state readings (held log) start low high) (bound : Int64) :
    Reported ingests (prunes ++ [(Window.prune state bound log).result]) readings
      (reach (Window.staleViews state bound log) low) := by
  obtain ⟨hevents, hcounted⟩ := Window.report_prune state bound log
  have hread := hconserved.countP_staleViews bound (P := fun _ => True) (Q := fun _ => True)
    fun _ _ _ => Iff.rfl
  have hfound := hconserved.countP_staleViews bound (P := fun r => r.profile.isSome)
    (Q := fun v => (TakeBack.countedIn? state v).isSome)
    fun r hr hlow => hconserved.accounts.isSome_countedIn?_iff hr hlow
  simp only [true_and, decide_true, List.countP_true, Bool.decide_eq_true] at hread hfound
  refine ⟨h.ingested, h.counted, ?_, ?_⟩
  · rw [List.map_append, List.sum_append, List.map_singleton, List.sum_singleton, hevents,
      Nat.add_assoc, ← hread, h.pruned]
  · rw [List.map_append, List.sum_append, List.map_singleton, List.sum_singleton, hcounted,
      Nat.add_assoc, ← hfound, h.takenBack]

end Reported

namespace Chronicle

variable {σ : Type} [ViewSource σ] [HonestSource σ] {c : Chronicle σ}

/-- The cursor that the first advance among several steps sets both watermarks to. -/
def origin? (c : Chronicle σ) : List (Step σ) → Option Cursor
  | [] => none
  | .log log :: rest => (c.step (.log log)).origin? rest
  | .advance now _ :: _ => some (Cursor.floor (c.window.startAt now))
  | .restart seconds :: rest => (c.step (.restart seconds)).origin? rest

/-- What the advances of a run have reported agrees with what was read since the window began, if it
has. -/
inductive Books (c : Chronicle σ) : Option Cursor → List Memory.Rehearsal.Outcome → Prop
  | idle (hstate : c.window.state = {}) (hreadings : c.readings = []) : Books c none []
  | begun {first low high : Cursor} {reports : List Memory.Rehearsal.Outcome}
      (hconserved : Conserved c.window.state c.readings (held c.log) first low high)
      (hreported : Reported (reports.map (·.ingest)) (reports.map (·.prune)) c.readings low) :
      Books c (some first) reports

namespace Books

variable {origin : Option Cursor} {reports : List Memory.Rehearsal.Outcome}

/-- When an advance begins, the window has begun, where it did before or at the start of the
window. -/
theorem begin (h : c.Books origin reports) (now : Int64) : ∃ low high,
    Conserved (c.window.begin now) c.readings (held c.log)
      (origin.getD (Cursor.floor (c.window.startAt now))) low high ∧
    Reported (reports.map (·.ingest)) (reports.map (·.prune)) c.readings low := by
  cases h with
  | idle hstate hreadings =>
    rw [hreadings]
    exact ⟨_, _, Conserved.begin c.window hstate (held c.log) now, rfl, rfl, rfl, rfl⟩
  | begun hconserved hreported =>
    rw [hconserved.accounts.begin_eq]
    exact ⟨_, _, hconserved, hreported⟩

/-- An advance adds its report to the books. -/
theorem advance (h : c.Books origin reports) (now : Int64) (lookup : Lookup) :
    (c.advance now lookup).Books
      (some (origin.getD (Cursor.floor (c.window.startAt now))))
      (reports ++ [c.outcome now lookup]) := by
  obtain ⟨low, high, hbegun, hreported⟩ := h.begin now
  have hingested := hbegun.ingest now lookup
  refine .begun (hingested.prune (c.window.startAt now)) ?_
  rw [List.map_append, List.map_append]
  exact (hreported.ingest hbegun now lookup).prune hingested (c.window.startAt now)

/-- A restart leaves the books as they are. -/
theorem restart (h : c.Books origin reports) (seconds : Int64) :
    (c.restart seconds).Books origin reports := by
  cases h with
  | idle hstate hreadings =>
    rw [restart_of_empty hstate]
    exact .idle rfl hreadings
  | begun hconserved hreported =>
    obtain ⟨restored, hrestart, hagrees⟩ := restart_of_tidy hconserved.accounts.tidy seconds
    rw [hrestart]
    exact .begun (hconserved.agrees hagrees) hreported

/-- The books agree after every run that changes the log only past the high watermark. -/
theorem run (h : c.Books origin reports) {steps : List (Step σ)}
    (hsteps : Along step Settled c steps) :
    (c.run steps).Books (origin <|> c.origin? steps) (reports ++ c.outcomes steps) := by
  induction steps generalizing c origin reports with
  | nil => simpa [Chronicle.run, origin?, outcomes] using h
  | cons a rest ih =>
    cases a with
    | log log =>
      refine ih (c := c.step (.log log)) ?_ hsteps.2
      cases h with
      | idle hstate hreadings => exact .idle hstate hreadings
      | begun hconserved hreported =>
        exact .begun (hconserved.settled (hsteps.1 _ hconserved.accounts.high_eq)) hreported
    | advance now lookup =>
      have hnext := ih (h.advance now lookup) hsteps.2
      rw [List.append_assoc] at hnext
      cases origin <;> exact hnext
    | restart seconds => exact ih (h.restart seconds) hsteps.2

end Books

/-- Over a run that changes the log only past the high watermark, the intakes report every view
between the place where the window began and the high watermark once, the take-backs report every
view up to the low watermark once, and what the intakes counted beyond what was taken back is what
the boosts hold and what everyone at either location is shown. -/
theorem reports_recount {seconds : Int64} {log : σ} {steps : List (Step σ)}
    (hsteps : Along step Settled (start seconds log) steps) {first : Cursor}
    (hfirst : (start seconds log).origin? steps = some first) :
    let c := (start seconds log).run steps
    let reports := (start seconds log).outcomes steps
    ∃ low high, c.window.state.low = some low ∧ c.window.state.high = some high ∧
      (reports.map fun o => eventsIn o.ingest).sum =
        (held c.log).countP (fun v => first < v.cursor ∧ v.cursor ≤ high) ∧
      (reports.map fun o => eventsIn o.prune).sum =
        (held c.log).countP (fun v => first < v.cursor ∧ v.cursor ≤ low) ∧
      (reports.map fun o => countedIn o.ingest).sum =
        (reports.map fun o => countedIn o.prune).sum +
          (c.window.state.holdings.keys.map c.window.state.viewsOf).sum ∧
      ((held c.log).length < 2 ^ 64 →
        (reports.map fun o => countedIn o.ingest).sum =
          (reports.map fun o => countedIn o.prune).sum +
            ((c.window.state.total ⟨.newsfeed, .general⟩).toNat +
              (c.window.state.total ⟨.sidebar, .general⟩).toNat)) := by
  intro c reports
  have hidle : (start seconds log).Books none [] := .idle rfl rfl
  have hbooks : c.Books (some first) reports := hfirst ▸ hidle.run hsteps
  cases hbooks with
  | begun hconserved hreported =>
    obtain ⟨hingested, hcounted, hpruned, htaken⟩ := hreported
    simp only [List.map_map, Function.comp_def] at hingested hcounted hpruned htaken
    refine ⟨_, _, hconserved.accounts.low_eq, hconserved.accounts.high_eq, ?_, ?_, ?_,
      fun hsize => ?_⟩
    · rw [hingested, List.countP_eq_length_filter, hconserved.logged_perm.length_eq,
        List.length_map]
    · have hlength := hconserved.length_eq_add
      omega
    · rw [hconserved.accounts.sum_viewsOf, htaken, hcounted]
    · rw [hconserved.accounts.total_general_add (Nat.lt_of_le_of_lt hconserved.length_le hsize),
        htaken, hcounted]

/-- An intake is broken off and repeated while one boost is unknown; then the other boost moves to
the sidebar and has another view. -/
def interrupted : List (Step Memory.Log) :=
  let views : List View := [.filed ⟨1000, 1⟩ "urn:boost:newsfeed:a",
    .filed ⟨1500, 1⟩ "urn:boost:newsfeed:b", .filed ⟨2000, 1⟩ "urn:boost:newsfeed:a"]
  let next := View.filed ⟨2550, 1⟩ "urn:boost:newsfeed:a"
  let knows (l : Location) : Lookup := fun id =>
    .ok (if id = "a" then some { id, location := l, safeForAll := true } else none)
  [.advance 0 (knows .newsfeed), .log ((Memory.Log.filing views).failNextAfter 2),
    .advance 2500 (knows .newsfeed), .advance 2500 (knows .newsfeed),
    .log ((Memory.Log.filing views).push next), .restart 1, .advance 2600 (knows .sidebar)]

/-- What the abandoned intake had read is reported by the one that repeats it, and by no other. -/
theorem reports_recount_interrupted :
    let c := (start 1 {}).run interrupted
    let reports := (start 1 {}).outcomes interrupted
    Along step Settled (start 1 {}) interrupted ∧
      (start 1 {}).origin? interrupted = some (Cursor.floor (-1000)) ∧
      ∃ low high, c.window.state.low = some low ∧ c.window.state.high = some high ∧
        (reports.map fun o => eventsIn o.ingest).sum = (held c.log).countP (fun v =>
          Cursor.floor (-1000) < v.cursor ∧ v.cursor ≤ high) ∧
        (reports.map fun o => eventsIn o.prune).sum = (held c.log).countP (fun v =>
          Cursor.floor (-1000) < v.cursor ∧ v.cursor ≤ low) ∧
        (reports.map fun o => countedIn o.ingest).sum =
          (reports.map fun o => countedIn o.prune).sum +
            (c.window.state.holdings.keys.map c.window.state.viewsOf).sum ∧
        ((held c.log).length < 2 ^ 64 →
          (reports.map fun o => countedIn o.ingest).sum =
            (reports.map fun o => countedIn o.prune).sum +
              ((c.window.state.total ⟨.newsfeed, .general⟩).toNat +
                (c.window.state.total ⟨.sidebar, .general⟩).toNat)) :=
  ⟨by decide, by decide, reports_recount (by decide) (by decide)⟩

example : ((start 1 {}).outcomes interrupted).map (fun o =>
    (eventsIn o.ingest, countedIn o.ingest, eventsIn o.prune, countedIn o.prune)) =
      [(0, 0, 0, 0), (0, 0, 0, 0), (3, 2, 1, 1), (1, 1, 1, 0)] := by decide

end Chronicle

end Pacing
