import Pacing.Proofs.HoldingAccounts
import Pacing.Proofs.SnapshotSemantics

/-!
# A window that agrees with what was read

The accounts of a window are in order when its watermarks are, every boost holds what was read of
it, and every total is the number of counted readings past the low watermark. Committing an intake
keeps them in order for the readings with those of the intake added. Committing a take-back keeps
them in order for a higher low watermark, provided that every view taken back has been read.
-/

namespace Pacing

/-- How far a scan has come: the place of the last view read, or the place where it began. -/
def reach (views : List View) (start : Cursor) : Cursor :=
  (views.getLast?.map View.cursor).getD start

section Reach

variable {views : List View} {start : Cursor} {v : View}

/-- A scan that reads nothing stays where it began. -/
@[simp] theorem reach_nil (start : Cursor) : reach [] start = start := rfl

/-- A scan comes as far as the last view that it reads. -/
theorem reach_of_getLast? (h : views.getLast? = some v) (start : Cursor) :
    reach views start = v.cursor := by
  simp [reach, h]

/-- A scan comes to a view that it read, unless it stays where it began. -/
theorem reach_eq_or (views : List View) (start : Cursor) :
    reach views start = start ∨ ∃ v ∈ views, v.cursor = reach views start := by
  rcases List.eq_nil_or_concat' views with rfl | ⟨front, last, rfl⟩
  · exact .inl rfl
  · exact .inr ⟨last, by simp, (reach_of_getLast? List.getLast?_concat start).symm⟩

/-- No view of a scan lies behind the last one. -/
theorem le_reach (hrising : views.Pairwise (·.cursor < ·.cursor)) (hv : v ∈ views) :
    v.cursor ≤ reach views start := by
  obtain ⟨front, last, rfl⟩ := List.eq_nil_or_concat' views |>.resolve_left (List.ne_nil_of_mem hv)
  rw [reach_of_getLast? List.getLast?_concat]
  refine Cursor.le_last_of_rising (List.pairwise_map.mpr hrising) (b := last.cursor) ?_
    (List.mem_map_of_mem hv)
  simp

/-- A scan of views past its beginning does not end before it. -/
theorem start_le_reach (hpast : ∀ v ∈ views, start < v.cursor) : start ≤ reach views start := by
  rcases List.eq_nil_or_concat' views with rfl | ⟨front, last, rfl⟩
  · exact le_refl _
  · rw [reach_of_getLast? List.getLast?_concat]
    exact le_of_lt (hpast last (by simp))

/-- Committing an intake moves the high watermark as far as the intake has come. -/
theorem Intake.SumsUp.high_eq_reach {lookup : Lookup} {s : Intake} {state : WindowState}
    {high : Cursor} (hs : Intake.SumsUp lookup views s) (hhigh : state.high = some high) :
    (state.commitIntake s).high = some (reach views high) := by
  rw [WindowState.high_commitIntake, hs.tally_eq, hhigh, reach]
  cases views.getLast? <;> rfl

/-- Committing a take-back moves the low watermark as far as the take-back has come. -/
theorem TakeBack.SumsUp.low_eq_reach {s : TakeBack} {state : WindowState} {low : Cursor}
    (hs : TakeBack.SumsUp state views s) (hlow : state.low = some low) :
    (state.commitTakeBack s).low = some (reach views low) := by
  rw [WindowState.low_commitTakeBack, hs.tally_eq, hlow, reach]
  cases views.getLast? <;> rfl

end Reach

/-- The readings of a boost. -/
def readingsOf (readings : List Reading) (id : String) : List Reading :=
  readings.filter (·.boost? = some id)

/-- The readings of a boost are those with its identifier. -/
theorem mem_readingsOf {readings : List Reading} {id : String} {r : Reading} :
    r ∈ readingsOf readings id ↔ r ∈ readings ∧ r.boost? = some id := by
  simp [readingsOf]

/-- The accounts of a window agree with what was read. -/
structure Accounts (state : WindowState) (readings : List Reading) (low high : Cursor) : Prop where
  low_eq : state.low = some low
  high_eq : state.high = some high
  low_le_high : low ≤ high
  rising : readings.Pairwise (·.cursor < ·.cursor)
  le_high : ∀ r ∈ readings, r.cursor ≤ high
  attributed : ∀ r ∈ readings, r.profile.isSome → r.boost?.isSome
  holdings (id : String) : HoldingSound state.holdings[id]? (readingsOf readings id) low high
  totals : readings.length < 2 ^ 64 → ∀ b,
    (state.total b).toNat = readings.countP fun r => b ∈ r.buckets ∧ low < r.cursor

namespace Accounts

variable {state : WindowState} {readings : List Reading} {low high : Cursor}

/-- No view is read twice. -/
theorem nodup_views (h : Accounts state readings low high) :
    (readings.map Reading.view).Nodup := by
  refine List.Nodup.of_map View.cursor ?_
  rw [List.map_map]
  exact (List.pairwise_map.mpr h.rising).nodup

/-- What a boost holds are its counted readings past the low watermark. -/
theorem viewsOf_eq (h : Accounts state readings low high) (id : String) :
    state.viewsOf id =
      readings.countP fun r => r.boost? = some id ∧ r.profile.isSome ∧ low < r.cursor := by
  have hsum := (h.holdings id).segments.sum_views fun _ => True
  have hviews : state.viewsOf id =
      (((segmentsOf state.holdings[id]?).filter fun _ => True).map Segment.views).sum := by
    unfold WindowState.viewsOf
    cases state.holdings[id]? <;> simp [Holding.views]
  rw [hviews, hsum, readingsOf, List.countP_filter]
  refine List.countP_congr fun r _ => ?_
  cases r.profile <;> simp [and_comm]

/-- The views of a boost fit into 64 bits if those that were read do. -/
theorem viewsOf_lt (h : Accounts state readings low high) (hsize : readings.length < 2 ^ 64)
    (id : String) : state.viewsOf id < 2 ^ 64 := by
  rw [h.viewsOf_eq]
  exact Nat.lt_of_le_of_lt List.countP_le_length hsize

/-- Counted readings that have not been taken back are those of all boosts that hold views. -/
theorem sum_countP_holdings (h : Accounts state readings low high) {P : Reading → Prop}
    [DecidablePred P] (hP : ∀ r ∈ readings, P r → r.profile.isSome ∧ low < r.cursor) :
    (state.holdings.keys.map fun id => readings.countP fun r => r.boost? = some id ∧ P r).sum =
      readings.countP fun r => P r := by
  rw [← countP_exists]
  · refine List.countP_congr fun r hr => ?_
    simp only [decide_eq_true_eq]
    constructor
    · rintro ⟨_, _, _, hPr⟩
      exact hPr
    · intro hPr
      obtain ⟨hcounted, hlow⟩ := hP r hr hPr
      obtain ⟨id, hboost⟩ := Option.isSome_iff_exists.mp (h.attributed r hr hcounted)
      obtain ⟨s, hs, _⟩ := (h.holdings id).segments.covered r (mem_readingsOf.mpr ⟨hr, hboost⟩)
        hcounted hlow
      refine ⟨id, ?_, hboost, hPr⟩
      rw [Std.ExtTreeMap.mem_keys, Std.ExtTreeMap.mem_iff_isSome_getElem?]
      cases hheld : state.holdings[id]? with
      | none => simp [hheld] at hs
      | some g => rfl
  · refine state.holdings.distinct_keys.imp fun {i j} hne r _ hi hj => hne ?_
    rw [Std.LawfulEqCmp.compare_eq_iff_eq]
    exact Option.some.inj (hi.1.symm.trans hj.1)

/-- What all boosts hold together are the counted readings past the low watermark. -/
theorem sum_viewsOf (h : Accounts state readings low high) :
    (state.holdings.keys.map state.viewsOf).sum =
      readings.countP fun r => r.profile.isSome ∧ low < r.cursor := by
  rw [← h.sum_countP_holdings fun r _ hr => hr]
  exact congrArg List.sum (List.map_congr_left fun id _ => h.viewsOf_eq id)

/-- Accounts in order leave nothing that a snapshot would drop or refuse. -/
theorem tidy (h : Accounts state readings low high) : state.Tidy where
  watermarks := .inr ⟨low, high, h.low_eq, h.high_eq, h.low_le_high⟩
  nonempty id := (h.holdings id).nonempty
  held id g hg := by
    have hsegments := (h.holdings id).segments
    rw [hg, segmentsOf_some] at hsegments
    exact hsegments.held
  forward id g hg := by
    have hsegments := (h.holdings id).segments
    rw [hg, segmentsOf_some] at hsegments
    exact hsegments.forward

/-- The accounts are in order for any other state that agrees. -/
theorem agrees (h : Accounts state readings low high) {state' : WindowState}
    (hagrees : state.Agrees state') : Accounts state' readings low high where
  low_eq := hagrees.low_eq.trans h.low_eq
  high_eq := hagrees.high_eq.trans h.high_eq
  low_le_high := h.low_le_high
  rising := h.rising
  le_high := h.le_high
  attributed := h.attributed
  holdings id := by
    rw [hagrees.holdings_eq]
    exact h.holdings id
  totals hsize b := by
    rw [hagrees.total_eq]
    exact h.totals hsize b

/-! ## Committing an intake -/

section Intake

variable {lookup : Lookup} {views : List View} {s : Intake}

/-- The readings of a boost are added to by its views. -/
private theorem readingsOf_append_under (id : String) :
    readingsOf (readings ++ views.map (Reading.under lookup)) id =
      readingsOf readings id ++
        (views.filter (·.boost? = some id)).map (Reading.under lookup) := by
  rw [readingsOf, List.filter_append, List.filter_map]
  rfl

/-- A boost of which an intake read nothing is neither missed nor given a run. -/
private theorem holding_of_unread (hs : Intake.SumsUp lookup views s) {id : String}
    (hunread : views.filter (·.boost? = some id) = []) :
    (state.commitIntake s).holdings[id]? = state.holdings[id]? := by
  have hmissed : id ∉ s.missed := by
    rw [hs.mem_missed_iff]
    rintro ⟨⟨v, hv, hboost⟩, _⟩
    have hmem : v ∈ views.filter (·.boost? = some id) := List.mem_filter.mpr ⟨hv, by simpa⟩
    rw [hunread] at hmem
    cases hmem
  have hruns : s.runs[id]? = none := by simp [hs.runs_eq, Intake.cursorsOf, hunread]
  simp [WindowState.holding_commitIntake, hmissed, hruns]

/-- What an intake reads of a boost lies past the high watermark, no further than the intake came,
and is counted under the profile of the boost. -/
private theorem fresh_of_mem (hs : Intake.SumsUp lookup views s)
    (hpast : ∀ v ∈ views, high < v.cursor) {id : String} {r : Reading}
    (hr : r ∈ (views.filter (·.boost? = some id)).map (Reading.under lookup)) :
    (high < r.cursor ∧ r.cursor ≤ reach views high) ∧ r.profile = profileOf lookup id := by
  obtain ⟨v, hv, rfl⟩ := List.mem_map.mp hr
  obtain ⟨hv, hboost⟩ := List.mem_filter.mp hv
  simp only [decide_eq_true_eq] at hboost
  exact ⟨⟨hpast v hv, le_reach hs.rising hv⟩, by simp [Reading.under, hboost]⟩

/-- The run that an intake stages for a boost is the run of what it read of that boost. -/
theorem runOf_of_staged (hs : Intake.SumsUp lookup views s)
    (hpast : ∀ v ∈ views, high < v.cursor) {id : String} {p : Profile}
    (hprofile : profileOf lookup id = some p) {run : Segment} (hrun : s.runs[id]? = some run) :
    SegmentsSound.RunOf run p ((views.filter (·.boost? = some id)).map (Reading.under lookup))
      high (reach views high) := by
  have hcursors : ((views.filter (·.boost? = some id)).map (Reading.under lookup)).map
      Reading.cursor = Intake.cursorsOf views id := by
    simp [Intake.cursorsOf, Function.comp_def, Reading.cursor, Reading.under]
  refine SegmentsSound.runOf_of_ofRun? ?_ ?_ ?_ ?_ ?_
  · rw [hcursors, ← hprofile, ← hs.runs_eq, hrun]
  · exact List.pairwise_map.mpr (hs.rising.filter _)
  · exact fun r hr => (fresh_of_mem hs hpast hr).1.1
  · exact fun r hr => (fresh_of_mem hs hpast hr).1.2
  · exact fun r hr => (fresh_of_mem hs hpast hr).2.trans hprofile

/-- A boost that an intake could not look up is missed: its segments are sealed off. -/
private theorem holding_of_missed (h : Accounts state readings low high)
    (hs : Intake.SumsUp lookup views s) (hpast : ∀ v ∈ views, high < v.cursor) {id : String}
    (hread : views.filter (·.boost? = some id) ≠ []) (hprofile : profileOf lookup id = none) :
    HoldingSound (state.commitIntake s).holdings[id]?
      (readingsOf readings id ++ (views.filter (·.boost? = some id)).map (Reading.under lookup))
      low (reach views high) := by
  obtain ⟨v, hv⟩ := List.exists_mem_of_ne_nil _ hread
  obtain ⟨hv, hboost⟩ := List.mem_filter.mp hv
  have hmissed : id ∈ s.missed :=
    hs.mem_missed_iff.mpr ⟨⟨v, hv, by simpa using hboost⟩, hprofile⟩
  have hruns : s.runs[id]? = none := by simp [hs.runs_eq, hprofile]
  simp only [WindowState.holding_commitIntake, hmissed, if_true, hruns]
  refine (h.holdings id).sealOff (fun r hr => ?_) (fun r hr => ?_) (start_le_reach hpast)
  · exact (fresh_of_mem hs hpast hr).1.1
  · exact (fresh_of_mem hs hpast hr).2.trans hprofile

/-- A boost that an intake could look up is given the run of what the intake read of it. -/
private theorem holding_of_counted (h : Accounts state readings low high)
    (hs : Intake.SumsUp lookup views s) (hpast : ∀ v ∈ views, high < v.cursor) {id : String}
    (hread : views.filter (·.boost? = some id) ≠ []) {p : Profile}
    (hprofile : profileOf lookup id = some p) :
    HoldingSound (state.commitIntake s).holdings[id]?
      (readingsOf readings id ++ (views.filter (·.boost? = some id)).map (Reading.under lookup))
      low (reach views high) := by
  have hmissed : id ∉ s.missed := fun hmem => by simp [hs.mem_missed_iff, hprofile] at hmem
  have hne : Intake.cursorsOf views id ≠ [] := by simpa [Intake.cursorsOf] using hread
  obtain ⟨run, hrun⟩ : ∃ run, Segment.ofRun? (some p) (Intake.cursorsOf views id) = some run := by
    obtain ⟨first, hfirst⟩ := Option.isSome_iff_exists.mp (List.isSome_head?.mpr hne)
    have hlast := List.getLast?_eq_some_getLast hne
    exact ⟨_, Segment.ofRun?_eq_some_iff.mpr ⟨first, _, hfirst, hlast, rfl⟩⟩
  have hruns : s.runs[id]? = some run := by rw [hs.runs_eq, hprofile, hrun]
  simp only [WindowState.holding_commitIntake, hmissed, if_false, hruns]
  exact (h.holdings id).append (runOf_of_staged hs hpast hprofile hruns)
    (fun r hr => h.le_high r (mem_readingsOf.mp hr).1) h.low_le_high

/-- After an intake every boost holds what was read of it, before and during the intake. -/
private theorem holding_commitIntake (h : Accounts state readings low high)
    (hs : Intake.SumsUp lookup views s) (hpast : ∀ v ∈ views, high < v.cursor) (id : String) :
    HoldingSound (state.commitIntake s).holdings[id]?
      (readingsOf (readings ++ views.map (Reading.under lookup)) id) low (reach views high) := by
  rw [readingsOf_append_under]
  by_cases hunread : views.filter (·.boost? = some id) = []
  · rw [holding_of_unread hs hunread, hunread, List.map_nil, List.append_nil]
    exact (h.holdings id).raise (start_le_reach hpast)
  · cases hprofile : profileOf lookup id with
    | none => exact h.holding_of_missed hs hpast hunread hprofile
    | some p => exact h.holding_of_counted hs hpast hunread hprofile

/-- After an intake every total counts what was read before and during the intake. -/
private theorem total_commitIntake (h : Accounts state readings low high)
    (hs : Intake.SumsUp lookup views s) (hpast : ∀ v ∈ views, high < v.cursor)
    (hsize : (readings ++ views.map (Reading.under lookup)).length < 2 ^ 64) (b : Bucket) :
    ((state.commitIntake s).total b).toNat =
      (readings ++ views.map (Reading.under lookup)).countP fun r =>
        b ∈ r.buckets ∧ low < r.cursor := by
  rw [List.length_append] at hsize
  have hfresh : (views.map (Reading.under lookup)).countP
      (fun r => b ∈ r.buckets ∧ low < r.cursor) = s.gained.getD b 0 := by
    rw [hs.gained_eq, List.countP_map]
    refine List.countP_congr fun v hv => ?_
    have hlow : low < (Reading.under lookup v).cursor :=
      lt_of_le_of_lt h.low_le_high (hpast v hv)
    simp [hlow]
  have hold := h.totals (by omega) b
  have hold_le := List.countP_le_length (p := fun r : Reading => b ∈ r.buckets ∧ low < r.cursor)
    (l := readings)
  have hfresh_le := List.countP_le_length
    (p := fun r : Reading => b ∈ r.buckets ∧ low < r.cursor)
    (l := views.map (Reading.under lookup))
  rw [List.countP_append, hfresh, WindowState.total_commitIntake, UInt64.toNat_add, hold,
    UInt64.toNat_ofNat', Nat.add_mod_mod, Nat.mod_eq_of_lt (by omega)]

/-- Committing an intake keeps the accounts in order, with what it read added. -/
theorem commitIntake (h : Accounts state readings low high) (hs : Intake.SumsUp lookup views s)
    (hpast : ∀ v ∈ views, high < v.cursor) :
    Accounts (state.commitIntake s) (readings ++ views.map (Reading.under lookup)) low
      (reach views high) where
  low_eq := (state.low_commitIntake s).trans h.low_eq
  high_eq := hs.high_eq_reach h.high_eq
  low_le_high := le_trans h.low_le_high (start_le_reach hpast)
  rising := by
    refine List.pairwise_append.mpr ⟨h.rising, List.pairwise_map.mpr hs.rising, ?_⟩
    intro r hr r' hr'
    obtain ⟨v, hv, rfl⟩ := List.mem_map.mp hr'
    exact lt_of_le_of_lt (h.le_high r hr) (hpast v hv)
  le_high r hr := by
    rcases List.mem_append.mp hr with hr | hr
    · exact le_trans (h.le_high r hr) (start_le_reach hpast)
    · obtain ⟨v, hv, rfl⟩ := List.mem_map.mp hr
      exact le_reach hs.rising hv
  attributed r hr hcounted := by
    rcases List.mem_append.mp hr with hr | hr
    · exact h.attributed r hr hcounted
    · obtain ⟨v, _, rfl⟩ := List.mem_map.mp hr
      obtain ⟨p, hp⟩ := Option.isSome_iff_exists.mp hcounted
      obtain ⟨id, hid, _⟩ := Option.bind_eq_some_iff.mp hp
      exact Option.isSome_iff_exists.mpr ⟨id, hid⟩
  holdings := h.holding_commitIntake hs hpast
  totals := h.total_commitIntake hs hpast

end Intake

end Accounts

end Pacing
