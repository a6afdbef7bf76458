import Pacing.Proofs.Conservation

/-!
# The trailing window

While time does not run backwards, everything that was read is in the past and the low watermark
stays behind the start of the window. An advance of which both scans are complete then leaves
nothing unread that is in the window and nothing counted that has left it, so that the counters are
those of the views in the trailing window, however many scans failed before.
-/

namespace Pacing

open HonestSource (held)

/-- Clamping to 64 bits keeps the order of integers. -/
private theorem ofIntClamp_mono {x y : Int} (hxy : x ≤ y) :
    Int64.ofIntClamp x ≤ Int64.ofIntClamp y := by
  rw [Int64.le_iff_toInt_le]
  by_cases hx : Int64.minValue.toInt ≤ x
  · by_cases hy : y ≤ Int64.maxValue.toInt
    · rw [Int64.toInt_ofIntClamp hx (Int.le_trans hxy hy),
        Int64.toInt_ofIntClamp (Int.le_trans hx hxy) hy]
      exact hxy
    · have hmax : Int64.ofIntClamp y = Int64.maxValue := by
        rw [Int64.ofIntClamp, dif_pos (Int.le_trans hx hxy), dif_neg hy]
      rw [hmax]
      exact Int64.toInt_le _
  · have hmin : Int64.ofIntClamp x = Int64.minValue := by rw [Int64.ofIntClamp, dif_neg hx]
    rw [hmin]
    exact Int64.minValue_le_toInt _

/-- The start of the window moves forward with time. -/
theorem Window.startAt_mono (w : Window) {now now' : Int64} (hnow : now ≤ now') :
    w.startAt now ≤ w.startAt now' := by
  rw [Int64.le_iff_toInt_le] at hnow
  exact ofIntClamp_mono (by omega)

/-- A timestamp is in the trailing window at a time, both ends included. -/
def Window.Covers (w : Window) (now ts : Int64) : Prop := w.startAt now ≤ ts ∧ ts ≤ now

instance (w : Window) (now ts : Int64) : Decidable (w.Covers now ts) := by
  unfold Window.Covers
  infer_instance

variable {σ : Type} [ViewSource σ] [HonestSource σ]

namespace Window

variable {state : WindowState} {log : σ} {lookup : Lookup} {now start : Int64} {low high : Cursor}
  {tally : Tally} {v : View}

/-- A complete intake comes as far as any view that is not in the future. -/
theorem le_reach_of_ingest (hhigh : state.high = some high)
    (hok : (ingest state now log lookup).result = .ok tally) (hv : v ∈ held log)
    (hnow : v.cursor.ts ≤ now) : v.cursor ≤ reach (freshViews state now log lookup) high := by
  obtain ⟨_, s, hs, _⟩ := ingest_spec state now log lookup
  by_cases hold : v.cursor ≤ high
  · exact le_trans hold (start_le_reach fun u hu => (of_mem_freshViews hhigh hu).2.1)
  · refine le_reach hs.rising ?_
    rw [freshViews_of_ok hhigh hok, List.mem_filter]
    exact ⟨hv, by simpa using ⟨not_le.mp hold, hnow⟩⟩

/-- A complete take-back comes as far as any view that has left the window. -/
theorem le_reach_of_prune (hlow : state.low = some low) (hhigh : state.high = some high)
    (hok : (prune state start log).result = .ok tally) (hv : v ∈ held log)
    (hcounted : v.cursor ≤ high) (hexpired : v.cursor < Cursor.floor start) :
    v.cursor ≤ reach (staleViews state start log) low := by
  obtain ⟨_, s, hs, _⟩ := prune_spec state start log
  by_cases hold : v.cursor ≤ low
  · exact le_trans hold (start_le_reach fun u hu => (of_mem_staleViews hlow hhigh hu).2.1)
  · refine le_reach hs.rising ?_
    rw [staleViews_of_ok hlow hhigh hok, List.mem_filter]
    exact ⟨hv, by simpa using ⟨not_le.mp hold, hcounted, hexpired⟩⟩

/-- A take-back does not come to the start of the window. -/
theorem reach_staleViews_le (hlow : state.low = some low) (hhigh : state.high = some high)
    (hbehind : low ≤ Cursor.floor start) (log : σ) :
    reach (staleViews state start log) low ≤ Cursor.floor start := by
  rcases List.eq_nil_or_concat' (staleViews state start log) with hnil | ⟨front, last, hlast⟩
  · rwa [hnil]
  · rw [hlast, reach_of_getLast? List.getLast?_concat]
    have hmem : last ∈ staleViews state start log := by simp [hlast]
    exact le_of_lt (of_mem_staleViews hlow hhigh hmem).2.2.2

end Window

namespace Chronicle

variable {c : Chronicle σ} {now : Int64} {lookup : Lookup} {seconds : Int64}

/-- Time does not run backwards and the window keeps its length. -/
def Punctual (c : Chronicle σ) : Step σ → Prop
  | .log _ => True
  | .advance now _ => ∀ latest ∈ c.latest, latest ≤ now
  | .restart seconds => seconds = c.window.seconds

-- Without this instance the latest time would be searched for among all timestamps.
instance (c : Chronicle σ) : (a : Step σ) → Decidable (c.Punctual a)
  | .log _ => isTrue trivial
  | .advance now _ =>
    match hlatest : c.latest with
    | none => isTrue (by simp [Punctual, hlatest])
    | some latest => decidable_of_iff (latest ≤ now) (by simp [Punctual, hlatest])
  | .restart seconds => inferInstanceAs (Decidable (seconds = c.window.seconds))

/-- At a time, everything that was read is in the past and the low watermark has not passed the
start of the window. -/
structure OnTime (w : Window) (readings : List Reading) (logged : List View) (now : Int64)
    (start low high : Cursor) : Prop where
  conserved : Conserved w.state readings logged start low high
  read_le : ∀ r ∈ readings, r.cursor.ts ≤ now
  low_le : low ≤ Cursor.floor (w.startAt now)

/-- The window has its length; unless it has not begun, it is on time at the latest advance. -/
structure Tracked (c : Chronicle σ) (seconds : Int64) : Prop where
  seconds_eq : c.window.seconds = seconds
  onTime : (c.window.state = {} ∧ c.readings = []) ∨ ∃ latest start low high,
    c.latest = some latest ∧ OnTime c.window c.readings (held c.log) latest start low high

namespace Tracked

/-- A window that is moved to a later time is on time then. -/
private theorem begin (h : c.Tracked seconds) (hnow : ∀ latest ∈ c.latest, latest ≤ now) :
    ∃ start low high, OnTime { c.window with state := c.window.begin now } c.readings (held c.log)
      now start low high := by
  rcases h.onTime with ⟨hstate, hreadings⟩ | ⟨latest, start, low, high, hlatest, h⟩
  · have hconserved := Conserved.begin c.window hstate (held c.log) now
    rw [hreadings]
    exact ⟨_, _, _, hconserved, by simp, le_refl _⟩
  · have hlater := hnow latest hlatest
    rw [h.conserved.accounts.begin_eq]
    refine ⟨start, low, high, h.conserved, fun r hr => Int64.le_trans (h.read_le r hr) hlater, ?_⟩
    exact le_trans h.low_le (Cursor.floor_le_iff.mpr (c.window.startAt_mono hlater))

/-- After an advance the window is on time. If both scans are complete, nothing that is not in the
future is unread and nothing that has left the window is counted. -/
theorem advance (h : c.Tracked seconds) (hnow : ∀ latest ∈ c.latest, latest ≤ now)
    (lookup : Lookup) : ∃ start low high,
      OnTime (c.advance now lookup).window (c.advance now lookup).readings
        (held (c.advance now lookup).log) now start low high ∧
      (∀ tally, (c.window.advance now c.log lookup).ingest = .ok tally →
        ∀ v ∈ held (c.advance now lookup).log, v.cursor.ts ≤ now → v.cursor ≤ high) ∧
      ∀ tally, (c.window.advance now c.log lookup).prune = .ok tally →
        ∀ v ∈ held (c.advance now lookup).log, v.cursor ≤ high →
          v.cursor < Cursor.floor ((c.advance now lookup).window.startAt now) → v.cursor ≤ low := by
  obtain ⟨start, low, high, hbegun⟩ := h.begin hnow
  have hingested := hbegun.conserved.ingest now lookup
  have hhigh := hbegun.conserved.accounts.high_eq
  have hlow' := hingested.accounts.low_eq
  have hhigh' := hingested.accounts.high_eq
  have hlog := (Window.ingest_spec (c.window.begin now) now c.log lookup).1
  have hlog' := (Window.prune_spec (Window.ingest (c.window.begin now) now c.log lookup).state
    (c.window.startAt now) (Window.ingest (c.window.begin now) now c.log lookup).log).1
  refine ⟨_, _, _, ⟨hingested.prune (c.window.startAt now), fun r hr => ?_, ?_⟩, ?_, ?_⟩
  · rcases List.mem_append.mp hr with hr | hr
    · exact hbegun.read_le r hr
    · obtain ⟨v, hv, rfl⟩ := List.mem_map.mp hr
      exact (Window.of_mem_freshViews hhigh hv).2.2
  · exact Window.reach_staleViews_le hlow' hhigh' hbegun.low_le _
  · intro tally hok v hv
    exact Window.le_reach_of_ingest hhigh hok (hlog ▸ hlog' ▸ hv)
  · intro tally hok v hv
    exact Window.le_reach_of_prune hlow' hhigh' hok (hlog' ▸ hv)

/-- A settled step on time leaves the chronicle tracked. -/
theorem step (h : c.Tracked seconds) {a : Step σ} (hsettled : c.Settled a)
    (hpunctual : c.Punctual a) : (c.step a).Tracked seconds := by
  cases a with
  | log log =>
    refine ⟨h.seconds_eq, ?_⟩
    rcases h.onTime with hfresh | ⟨latest, start, low, high, hlatest, hconserved, hread, hlow⟩
    · exact .inl hfresh
    · have hkept := hconserved.settled (hsettled high hconserved.accounts.high_eq)
      exact .inr ⟨latest, start, low, high, hlatest, hkept, hread, hlow⟩
  | advance now lookup =>
    obtain ⟨start, low, high, honTime, _⟩ := h.advance hpunctual lookup
    exact ⟨h.seconds_eq, .inr ⟨now, start, low, high, rfl, honTime⟩⟩
  | restart seconds' =>
    rcases h.onTime with ⟨hstate, hreadings⟩ | ⟨latest, start, low, high, hlatest, h'⟩
    · refine ⟨?_, ?_⟩ <;> rw [Chronicle.step, restart_of_empty hstate]
      · exact hpunctual.trans h.seconds_eq
      · exact .inl ⟨rfl, hreadings⟩
    · obtain ⟨state, hrestart, hagrees⟩ := restart_of_tidy h'.conserved.accounts.tidy seconds'
      refine ⟨?_, ?_⟩ <;> rw [Chronicle.step, hrestart]
      · exact hpunctual.trans h.seconds_eq
      · have hstart : ({ seconds := seconds', state } : Window).startAt latest =
            c.window.startAt latest := by
          rw [hpunctual]
          rfl
        exact .inr ⟨latest, start, low, high, hlatest, h'.conserved.agrees hagrees, h'.read_le,
          hstart ▸ h'.low_le⟩

/-- A run of settled steps on time leaves the chronicle tracked. -/
theorem run {log : σ} {steps : List (Step σ)}
    (hsettled : Along Chronicle.step Settled (start seconds log) steps)
    (hpunctual : Along Chronicle.step Punctual (start seconds log) steps) :
    ((start seconds log).run steps).Tracked seconds :=
  (Along.and_iff.mpr ⟨hsettled, hpunctual⟩).preserves (I := fun c => c.Tracked seconds)
    (fun _ _ ha h => h.step ha.1 ha.2) ⟨rfl, .inl ⟨rfl, rfl⟩⟩

end Tracked

/-- Of the logged views that are not at a boundary, those between the watermarks are those of the
trailing window, once nothing of the window is unread and nothing that has left it is counted. -/
theorem OnTime.between_iff {w : Window} {readings : List Reading} {logged : List View}
    {start low high : Cursor} (h : OnTime w readings logged now start low high)
    (hunread : ∀ v ∈ logged, v.cursor.ts ≤ now → v.cursor ≤ high)
    (hexpired : ∀ v ∈ logged, v.cursor ≤ high → v.cursor < Cursor.floor (w.startAt now) →
      v.cursor ≤ low)
    {v : View} (hv : v ∈ logged) (hseq : v.cursor.seq ≠ 0) :
    (low < v.cursor ∧ v.cursor ≤ high) ↔ w.Covers now v.cursor.ts := by
  rw [Window.Covers, ← Cursor.floor_le_iff]
  constructor
  · rintro ⟨hlow, hhigh⟩
    obtain ⟨r, hr, rfl⟩ := h.conserved.mem_logged_iff.mp
      ⟨hv, lt_of_le_of_lt h.conserved.start_le hlow, hhigh⟩
    refine ⟨?_, h.read_le r hr⟩
    by_contra hold
    exact not_le.mpr hlow (hexpired _ hv hhigh (not_le.mp hold))
  · rintro ⟨hstart, hnow⟩
    refine ⟨?_, hunread v hv hnow⟩
    rcases Cursor.le_iff_lt_or_eq.mp hstart with hlt | heq
    · exact lt_of_le_of_lt h.low_le hlt
    · exact absurd (congrArg Cursor.seq heq.symm) hseq

/-- After an advance of which both scans are complete, the totals and the views of every boost are
those of the trailing window, and no view of it is unread. -/
theorem advance_trailing {log : σ} {steps : List (Step σ)} {ingested pruned : Tally}
    (hsettled : Along step Settled (start seconds log) steps)
    (hpunctual : Along step Punctual (start seconds log) (steps ++ [.advance now lookup]))
    (hingest : (((start seconds log).run steps).window.advance now
      ((start seconds log).run steps).log lookup).ingest = .ok ingested)
    (hprune : (((start seconds log).run steps).window.advance now
      ((start seconds log).run steps).log lookup).prune = .ok pruned) :
    let c := (start seconds log).run (steps ++ [.advance now lookup])
    let window : Window := { seconds }
    (∀ v ∈ held c.log, v.cursor.seq ≠ 0) → (held c.log).length < 2 ^ 64 →
    (∀ b, (c.window.state.total b).toNat = (held c.log).countP fun v =>
      window.Covers now v.cursor.ts ∧ b ∈ c.bucketsOf v) ∧
    (∀ id, c.window.state.viewsOf id = (held c.log).countP fun v =>
      window.Covers now v.cursor.ts ∧ v.boost? = some id ∧ (c.resolution v).isSome) ∧
    ∀ v ∈ held c.log, window.Covers now v.cursor.ts → ∃ r ∈ c.readings, r.view = v := by
  intro c window hseq hsize
  obtain ⟨hbefore, hlast, _⟩ := Along.append_iff.mp hpunctual
  have htracked := Tracked.run hsettled hbefore
  have hc : c = ((start seconds log).run steps).advance now lookup := by
    simp only [c, run, List.foldl_append, List.foldl_cons, List.foldl_nil, step]
  obtain ⟨first, low, high, h, hunread, hexpired⟩ := htracked.advance hlast lookup
  have hunread := hunread ingested hingest
  have hexpired := hexpired pruned hprune
  have hseconds : c.window.seconds = window.seconds := by
    rw [hc]
    exact htracked.seconds_eq
  have hstart : c.window.startAt now = window.startAt now := by
    rw [Window.startAt, Window.startAt, Window.millis, Window.millis, hseconds]
  rw [← hc] at h hunread hexpired
  have hbetween {v : View} (hv : v ∈ held c.log) :
      (low < v.cursor ∧ v.cursor ≤ high) ↔ window.Covers now v.cursor.ts := by
    rw [Window.Covers, ← hstart]
    exact h.between_iff hunread hexpired hv (hseq v hv)
  refine ⟨fun b => ?_, fun id => ?_, fun v hv hcovers => ?_⟩
  · rw [total_eq_recount h.conserved hsize b]
    exact List.countP_congr fun v hv => by simp only [hbetween hv]
  · rw [viewsOf_eq_recount h.conserved id]
    exact List.countP_congr fun v hv => by simp only [hbetween hv]
  · obtain ⟨hlow, hhigh⟩ := (hbetween hv).mpr hcovers
    exact h.conserved.mem_logged_iff.mp
      ⟨hv, lt_of_le_of_lt h.conserved.start_le hlow, hhigh⟩

/-- A window of one second has a view at each edge and one behind it, and an intake of them breaks
off. -/
def brokenOff : List (Step Memory.Log) :=
  let log := Memory.Log.filing [.filed ⟨4, 1⟩ "urn:boost:newsfeed:a",
    .filed ⟨5, 1⟩ "urn:boost:newsfeed:a", .filed ⟨1005, 1⟩ "urn:boost:newsfeed:a"]
  [.advance 0 inNewsfeed, .log (log.failNextAfter 1), .advance 1000 inNewsfeed]

/-- The next advance makes up for it: both edges are in, and the view behind them is out. -/
theorem advance_trailing_brokenOff :
    let c := (start 1 ({} : Memory.Log)).run (brokenOff ++ [.advance 1005 inNewsfeed])
    let window : Window := { seconds := 1 }
    (∀ b, (c.window.state.total b).toNat = (held c.log).countP fun v =>
      window.Covers 1005 v.cursor.ts ∧ b ∈ c.bucketsOf v) ∧
    (∀ id, c.window.state.viewsOf id = (held c.log).countP fun v =>
      window.Covers 1005 v.cursor.ts ∧ v.boost? = some id ∧ (c.resolution v).isSome) ∧
    ∀ v ∈ held c.log, window.Covers 1005 v.cursor.ts → ∃ r ∈ c.readings, r.view = v := by
  have hsettled : Along step Settled (start 1 ({} : Memory.Log)) brokenOff := by decide
  have hpunctual : Along step Punctual (start 1 ({} : Memory.Log))
      (brokenOff ++ [.advance 1005 inNewsfeed]) := by decide
  exact advance_trailing hsettled hpunctual rfl rfl (by decide) (by decide)

end Chronicle

end Pacing
