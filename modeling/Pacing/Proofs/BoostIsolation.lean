import Pacing.Proofs.CommonPast

/-!
# Boosts apart from each other

Two windows are moved side by side over logs of their own. Their watermarks stop at different views,
and what they stage and take back differs. Still, as long as nothing arrives late and no scan fails,
what each of them holds of a boost depends only on the views of that boost: which of them a scan
reads can be told from the times that the windows were moved to, whatever other views there are.
-/

namespace Pacing

open HonestSource (held)

/-- Rising views of which two lists have the same are the same views in the same order. -/
theorem filter_eq_of_rising {views views' : List View} (h : views.Pairwise (·.cursor < ·.cursor))
    (h' : views'.Pairwise (·.cursor < ·.cursor)) {p : View → Prop} [DecidablePred p]
    (hmem : ∀ v, p v → (v ∈ views ↔ v ∈ views')) : views.filter p = views'.filter p := by
  refine eq_of_rising (h.filter _) (h'.filter _) fun v => ?_
  simp only [List.mem_filter, decide_eq_true_eq]
  exact and_congr_left fun hv => hmem v hv

/-! ## What a commit does to one boost -/

namespace TakeBack

variable {state state' : WindowState} {views views' : List View} {s s' : TakeBack} {id : String}

/-- Where a view was counted depends only on the holding of its boost. -/
theorem startOf?_eq_some_iff {v : View} {c : Cursor} :
    startOf? state v = some ⟨id, c⟩ ↔ v.boost? = some id ∧
      ∃ segment, state.holdings[id]?.bind (·.segmentAt? v.cursor) = some segment ∧
        segment.first = c := by
  simp only [startOf?, countedIn?, WindowState.segmentAt?, View.boost?, Option.map_eq_some_iff,
    Option.bind_eq_some_iff, Prod.exists, SegmentStart.mk.injEq, Prod.mk.injEq]
  constructor
  · rintro ⟨i, segment, ⟨_, hboost, _, ⟨h, hh, hsegment⟩, rfl, rfl⟩, rfl, rfl⟩
    exact ⟨hboost, _, ⟨h, hh, hsegment⟩, rfl⟩
  · rintro ⟨hboost, segment, ⟨h, hh, hsegment⟩, rfl⟩
    exact ⟨id, segment, ⟨id, hboost, segment, ⟨h, hh, hsegment⟩, rfl, rfl⟩, rfl, rfl⟩

/-- What is staged for the segments of a boost depends only on its views and its holding. -/
theorem SumsUp.removed_congr (h : SumsUp state views s) (h' : SumsUp state' views' s')
    (hviews : views.filter (·.boost? = some id) = views'.filter (·.boost? = some id))
    (hheld : state.holdings[id]? = state'.holdings[id]?) (c : Cursor) :
    s.removed[(⟨id, c⟩ : SegmentStart)]? = s'.removed[(⟨id, c⟩ : SegmentStart)]? := by
  have hcount (state : WindowState) (views : List View) :
      (views.countP fun v => startOf? state v = some ⟨id, c⟩) =
        (views.filter (·.boost? = some id)).countP fun v =>
          startOf? state v = some ⟨id, c⟩ := by
    rw [List.countP_filter]
    refine List.countP_congr fun v _ => ?_
    simp only [decide_eq_true_eq, Bool.and_eq_true]
    exact ⟨fun hv => ⟨hv, (startOf?_eq_some_iff.mp hv).1⟩, fun hv => hv.1⟩
  have hstart (v : View) : startOf? state v = some ⟨id, c⟩ ↔ startOf? state' v = some ⟨id, c⟩ := by
    rw [startOf?_eq_some_iff, startOf?_eq_some_iff, hheld]
  have hremoved : s.removed.getD ⟨id, c⟩ 0 = s'.removed.getD ⟨id, c⟩ 0 := by
    rw [h.removed_eq, h'.removed_eq, hcount state, hcount state', hviews]
    exact List.countP_congr fun v _ => by simpa only [decide_eq_true_eq] using hstart v
  rw [Std.ExtTreeMap.getD_eq_getD_getElem?, Std.ExtTreeMap.getD_eq_getD_getElem?] at hremoved
  cases hs : s.removed[(⟨id, c⟩ : SegmentStart)]? with
  | none =>
    cases hs' : s'.removed[(⟨id, c⟩ : SegmentStart)]? with
    | none => rfl
    | some n =>
      have := h'.removed_pos hs'
      simp only [hs, hs', Option.getD_none, Option.getD_some] at hremoved
      omega
  | some m =>
    have := h.removed_pos hs
    cases hs' : s'.removed[(⟨id, c⟩ : SegmentStart)]? with
    | none =>
      simp only [hs, hs', Option.getD_none, Option.getD_some] at hremoved
      omega
    | some n =>
      simp only [hs, hs', Option.getD_some] at hremoved
      rw [hremoved]

end TakeBack

namespace WindowState

variable {state state' : WindowState} {views views' : List View} {id : String}

/-- What an intake makes of the holding of a boost depends only on its views. -/
theorem holding_commitIntake_congr {lookup : Lookup} {s s' : Intake}
    (h : Intake.SumsUp lookup views s) (h' : Intake.SumsUp lookup views' s')
    (hviews : views.filter (·.boost? = some id) = views'.filter (·.boost? = some id))
    (hheld : state.holdings[id]? = state'.holdings[id]?) :
    (state.commitIntake s).holdings[id]? = (state'.commitIntake s').holdings[id]? := by
  have hread (views : List View) : (∃ v ∈ views, v.boost? = some id) ↔
      views.filter (·.boost? = some id) ≠ [] := by
    simp [List.filter_eq_nil_iff]
  have hmissed : id ∈ s.missed ↔ id ∈ s'.missed := by
    rw [h.mem_missed_iff, h'.mem_missed_iff, hread, hread, hviews]
  have hruns : s.runs[id]? = s'.runs[id]? := by
    rw [h.runs_eq, h'.runs_eq, Intake.cursorsOf, Intake.cursorsOf, hviews]
  simp only [holding_commitIntake, hmissed, hruns, hheld]

/-- What a take-back leaves of the holding of a boost depends only on its views. -/
theorem holding_commitTakeBack_congr {s s' : TakeBack} (h : TakeBack.SumsUp state views s)
    (h' : TakeBack.SumsUp state' views' s')
    (hviews : views.filter (·.boost? = some id) = views'.filter (·.boost? = some id))
    (hheld : state.holdings[id]? = state'.holdings[id]?) :
    (state.commitTakeBack s).holdings[id]? = (state'.commitTakeBack s').holdings[id]? := by
  have hremoved : s.removed.toList.filter (·.1.boost = id) =
      s'.removed.toList.filter (·.1.boost = id) := by
    refine filter_toList_congr (p := fun start : SegmentStart => start.boost = id)
      fun start hstart => ?_
    obtain ⟨boost, c⟩ := start
    subst hstart
    exact h.removed_congr h' hviews hheld c
  rw [holding_commitTakeBack, holding_commitTakeBack, hremoved, hheld]

end WindowState

/-! ## What the times of earlier advances say about the watermarks -/

/-- A cursor is not past one of some times. -/
def Cursor.ReachedBy (c : Cursor) (times : List Int64) : Prop := ∃ t ∈ times, c.ts ≤ t

/-- A cursor lies before the window at one of some times. -/
def Window.ExpiredBy (w : Window) (times : List Int64) (c : Cursor) : Prop :=
  ∃ t ∈ times, c < Cursor.floor (w.startAt t)

/-- Among the views past the place where a window began, its high watermark separates those that the
times of its complete intakes had reached from the others. Its low watermark separates those that
had, by the times of its complete take-backs, also expired. -/
structure Window.Tracks (w : Window) (state : WindowState) (logged : List View)
    (read taken : List Int64) (start low high : Cursor) : Prop where
  low_eq : state.low = some low
  high_eq : state.high = some high
  start_le : start ≤ low
  low_le_high : low ≤ high
  high_reached : high ≤ start ∨ high.ReachedBy read
  read_iff : ∀ v ∈ logged, start < v.cursor → (v.cursor ≤ high ↔ v.cursor.ReachedBy read)
  taken_iff : ∀ v ∈ logged, start < v.cursor →
    (v.cursor ≤ low ↔ v.cursor.ReachedBy taken ∧ w.ExpiredBy taken v.cursor)

namespace Window.Tracks

variable {σ : Type} [ViewSource σ] [HonestSource σ] {w : Window} {state : WindowState} {log : σ}
  {logged logged' : List View} {times read taken : List Int64} {start low high : Cursor}
  {now : Int64} {lookup : Lookup} {tally : Tally} {v : View}

/-- A window that begins tracks no times. -/
theorem begin (hstate : w.state = {}) (now : Int64) (logged : List View) :
    w.Tracks (w.begin now) logged [] [] (.floor (w.startAt now)) (.floor (w.startAt now))
      (.floor (w.startAt now)) := by
  have hbegin : w.begin now =
      { low := some (Cursor.floor (w.startAt now))
        high := some (Cursor.floor (w.startAt now)) } := by
    simp [Window.begin, hstate]
  rw [hbegin]
  refine ⟨rfl, rfl, le_refl _, le_refl _, .inl (le_refl _),
    fun v _ hpast => ?_, fun v _ hpast => ?_⟩
  · simp [Cursor.ReachedBy, not_le.mpr hpast]
  · simp [Cursor.ReachedBy, not_le.mpr hpast]

/-- A window that tracks times has begun. -/
theorem begin_eq (h : w.Tracks w.state logged read taken start low high) (now : Int64) :
    w.begin now = w.state := by
  simp [Window.begin, h.high_eq]

/-- Of the window itself only the length matters: one as long as it tracks what it tracks. -/
theorem of_seconds_eq {w' : Window} (h : w.Tracks state logged read taken start low high)
    (hseconds : w'.seconds = w.seconds) : w'.Tracks state logged read taken start low high := by
  have htaken := h.taken_iff
  simp only [ExpiredBy, startAt, millis, ← hseconds] at htaken
  exact { h with taken_iff := htaken }

/-- A log that has become another without late views leaves the watermarks where they separate its
views. -/
theorem onLog (h : w.Tracks state logged times times start low high)
    (hnews : ∀ v ∈ logged', v ∉ logged → ∀ t ∈ times, t < v.cursor.ts) :
    w.Tracks state logged' times times start low high := by
  -- A view that is new lies past the high watermark, and past every time.
  have hnew : ∀ v ∈ logged', v ∉ logged → start < v.cursor →
      high < v.cursor ∧ ¬v.cursor.ReachedBy times := by
    intro v hv hold hpast
    have hlate := hnews v hv hold
    have hunreached : ¬v.cursor.ReachedBy times := fun ⟨t, ht, hle⟩ =>
      absurd (hlate t ht) (Int64.not_lt.mpr hle)
    refine ⟨?_, hunreached⟩
    rcases h.high_reached with hle | ⟨t, ht, hle⟩
    · exact lt_of_le_of_lt hle hpast
    · rw [← not_le]
      exact fun hbelow => hunreached ⟨t, ht, Int64.le_trans (Cursor.ts_le_of_le hbelow) hle⟩
  refine { h with read_iff := fun v hv hpast => ?_, taken_iff := fun v hv hpast => ?_ }
  · by_cases hold : v ∈ logged
    · exact h.read_iff v hold hpast
    · obtain ⟨hhigh, hunreached⟩ := hnew v hv hold hpast
      exact iff_of_false (not_le.mpr hhigh) hunreached
  · by_cases hold : v ∈ logged
    · exact h.taken_iff v hold hpast
    · obtain ⟨hhigh, hunreached⟩ := hnew v hv hold hpast
      exact iff_of_false (not_le.mpr (lt_of_le_of_lt h.low_le_high hhigh))
        fun htaken => hunreached htaken.1

/-- A complete intake reads the views that its time has reached and no earlier one had. -/
theorem mem_freshViews_iff (h : w.Tracks state (held log) read taken start low high)
    (hok : (ingest state now log lookup).result = .ok tally) :
    v ∈ freshViews state now log lookup ↔ v ∈ held log ∧ start < v.cursor ∧
      ¬v.cursor.ReachedBy read ∧ v.cursor.ts ≤ now := by
  rw [freshViews_of_ok h.high_eq hok]
  simp only [List.mem_filter, decide_eq_true_eq]
  refine and_congr_right fun hv => ?_
  constructor
  · rintro ⟨hhigh, hnow⟩
    have hpast : start < v.cursor :=
      lt_of_le_of_lt (le_trans h.start_le h.low_le_high) hhigh
    exact ⟨hpast, fun hread => not_le.mpr hhigh ((h.read_iff v hv hpast).mpr hread), hnow⟩
  · rintro ⟨hpast, hunread, hnow⟩
    exact ⟨not_le.mp fun hle => hunread ((h.read_iff v hv hpast).mp hle), hnow⟩

/-- A complete take-back reads the views that were read, have expired by its time, and had not
before. -/
theorem mem_staleViews_iff (h : w.Tracks state (held log) read taken start low high)
    (hok : (prune state (w.startAt now) log).result = .ok tally) :
    v ∈ staleViews state (w.startAt now) log ↔ v ∈ held log ∧ start < v.cursor ∧
      v.cursor.ReachedBy read ∧ ¬(v.cursor.ReachedBy taken ∧ w.ExpiredBy taken v.cursor) ∧
        v.cursor < Cursor.floor (w.startAt now) := by
  rw [staleViews_of_ok h.low_eq h.high_eq hok]
  simp only [List.mem_filter, decide_eq_true_eq]
  refine and_congr_right fun hv => ?_
  constructor
  · rintro ⟨hlow, hhigh, hexpired⟩
    have hpast : start < v.cursor := lt_of_le_of_lt h.start_le hlow
    exact ⟨hpast, (h.read_iff v hv hpast).mp hhigh,
      fun htaken => not_le.mpr hlow ((h.taken_iff v hv hpast).mpr htaken), hexpired⟩
  · rintro ⟨hpast, hread, htaken, hexpired⟩
    exact ⟨not_le.mp fun hle => htaken ((h.taken_iff v hv hpast).mp hle),
      (h.read_iff v hv hpast).mpr hread, hexpired⟩

/-- A complete intake adds its time to those that the high watermark tracks. -/
theorem ingest (h : w.Tracks state (held log) times times start low high)
    (hok : (Window.ingest state now log lookup).result = .ok tally) :
    ∃ high', w.Tracks (Window.ingest state now log lookup).state (held log) (now :: times) times
      start low high' := by
  obtain ⟨-, s, hs, hstate⟩ := ingest_spec state now log lookup
  have hforward : high ≤ reach (freshViews state now log lookup) high :=
    start_le_reach fun v hv => (of_mem_freshViews h.high_eq hv).2.1
  have hreached : reach (freshViews state now log lookup) high = high ∨
      (reach (freshViews state now log lookup) high).ts ≤ now := by
    refine (reach_eq_or _ high).imp_right ?_
    rintro ⟨v, hv, hreach⟩
    exact hreach ▸ (of_mem_freshViews h.high_eq hv).2.2
  refine ⟨reach (freshViews state now log lookup) high, {
    low_eq := hstate ▸ h.low_eq
    high_eq := hstate ▸ hs.high_eq_reach h.high_eq
    start_le := h.start_le
    low_le_high := le_trans h.low_le_high hforward
    high_reached := ?_
    read_iff := fun v hv hpast => ?_
    taken_iff := h.taken_iff }⟩
  · rcases hreached with hsame | hnow
    · rw [hsame]
      refine h.high_reached.imp_right ?_
      rintro ⟨t, ht, hle⟩
      exact ⟨t, List.mem_cons_of_mem now ht, hle⟩
    · exact .inr ⟨now, List.mem_cons_self, hnow⟩
  · constructor
    · intro hle
      by_cases hold : v.cursor ≤ high
      · obtain ⟨t, ht, hts⟩ := (h.read_iff v hv hpast).mp hold
        exact ⟨t, List.mem_cons_of_mem now ht, hts⟩
      · rcases hreached with hsame | hnow
        · exact absurd (hsame ▸ hle) hold
        · exact ⟨now, List.mem_cons_self, Int64.le_trans (Cursor.ts_le_of_le hle) hnow⟩
    · rintro ⟨t, ht, hts⟩
      rcases List.mem_cons.mp ht with rfl | ht
      · exact le_reach_of_ingest h.high_eq hok hv hts
      · exact le_trans ((h.read_iff v hv hpast).mpr ⟨t, ht, hts⟩) hforward

/-- A complete take-back adds its time to those that the low watermark tracks. -/
theorem prune (h : w.Tracks state (held log) (now :: times) times start low high)
    (hok : (Window.prune state (w.startAt now) log).result = .ok tally) :
    ∃ low', w.Tracks (Window.prune state (w.startAt now) log).state (held log) (now :: times)
      (now :: times) start low' high := by
  obtain ⟨-, s, hs, hstate⟩ := prune_spec state (w.startAt now) log
  have hforward : low ≤ reach (staleViews state (w.startAt now) log) low :=
    start_le_reach fun v hv => (of_mem_staleViews h.low_eq h.high_eq hv).2.1
  have hreached : reach (staleViews state (w.startAt now) log) low = low ∨
      reach (staleViews state (w.startAt now) log) low ≤ high ∧
        reach (staleViews state (w.startAt now) log) low < Cursor.floor (w.startAt now) := by
    refine (reach_eq_or _ low).imp_right ?_
    rintro ⟨v, hv, hreach⟩
    exact hreach ▸ (of_mem_staleViews h.low_eq h.high_eq hv).2.2
  refine ⟨reach (staleViews state (w.startAt now) log) low, {
    low_eq := hstate ▸ hs.low_eq_reach h.low_eq
    high_eq := hstate ▸ h.high_eq
    start_le := le_trans h.start_le hforward
    low_le_high := ?_
    high_reached := h.high_reached
    read_iff := h.read_iff
    taken_iff := fun v hv hpast => ?_ }⟩
  · rcases hreached with hsame | ⟨hhigh, -⟩
    · rw [hsame]
      exact h.low_le_high
    · exact hhigh
  · constructor
    · intro hle
      by_cases hold : v.cursor ≤ low
      · obtain ⟨⟨t, ht, hts⟩, t', ht', hexpired⟩ := (h.taken_iff v hv hpast).mp hold
        exact ⟨⟨t, List.mem_cons_of_mem now ht, hts⟩, t', List.mem_cons_of_mem now ht', hexpired⟩
      · rcases hreached with hsame | ⟨hhigh, hexpired⟩
        · exact absurd (hsame ▸ hle) hold
        · exact ⟨(h.read_iff v hv hpast).mp (le_trans hle hhigh), now, List.mem_cons_self,
            lt_of_le_of_lt hle hexpired⟩
    · rintro ⟨hread, t, hmem, hexpired⟩
      by_cases hnow : v.cursor < Cursor.floor (w.startAt now)
      · exact le_reach_of_prune h.low_eq h.high_eq hok hv ((h.read_iff v hv hpast).mpr hread) hnow
      · -- The view expired at an earlier advance to a later time, which had reached it as well.
        have hlater : ¬t ≤ now := fun hle => hnow <| lt_of_lt_of_le hexpired <|
          Cursor.floor_le_iff.mpr (w.startAt_mono hle)
        rcases List.mem_cons.mp hmem with rfl | ht
        · exact absurd hexpired hnow
        · obtain ⟨t', hmem', hts⟩ := hread
          have hold : v.cursor.ReachedBy times := by
            rcases List.mem_cons.mp hmem' with rfl | ht'
            · exact ⟨t, ht, Int64.le_trans hts (Int64.le_of_lt (Int64.not_le.mp hlater))⟩
            · exact ⟨t', ht', hts⟩
          exact le_trans ((h.taken_iff v hv hpast).mpr ⟨hold, t, ht, hexpired⟩) hforward

variable {w' : Window} {state' : WindowState} {log' : σ} {low' high' : Cursor} {tally' : Tally}
  {id : String}

/-- Two complete intakes at one time make the same of a boost of which their logs hold the same
views. -/
theorem holding_ingest_eq (h : w.Tracks state (held log) times times start low high)
    (h' : w'.Tracks state' (held log') times times start low' high')
    (hok : (Window.ingest state now log lookup).result = .ok tally)
    (hok' : (Window.ingest state' now log' lookup).result = .ok tally')
    (hlogs : ∀ v : View, v.boost? = some id → (v ∈ held log ↔ v ∈ held log'))
    (hheld : state.holdings[id]? = state'.holdings[id]?) :
    (Window.ingest state now log lookup).state.holdings[id]? =
      (Window.ingest state' now log' lookup).state.holdings[id]? := by
  obtain ⟨-, s, hs, hstate⟩ := ingest_spec state now log lookup
  obtain ⟨-, s', hs', hstate'⟩ := ingest_spec state' now log' lookup
  rw [hstate, hstate']
  refine WindowState.holding_commitIntake_congr hs hs' ?_ hheld
  refine filter_eq_of_rising hs.rising hs'.rising fun v hv => ?_
  rw [h.mem_freshViews_iff hok, h'.mem_freshViews_iff hok', hlogs v hv]

/-- Two complete take-backs at one time leave the same of a boost of which their logs hold the same
views. -/
theorem holding_prune_eq (h : w.Tracks state (held log) (now :: times) times start low high)
    (h' : w'.Tracks state' (held log') (now :: times) times start low' high')
    (hstart : w.startAt = w'.startAt)
    (hok : (Window.prune state (w.startAt now) log).result = .ok tally)
    (hok' : (Window.prune state' (w'.startAt now) log').result = .ok tally')
    (hlogs : ∀ v : View, v.boost? = some id → (v ∈ held log ↔ v ∈ held log'))
    (hheld : state.holdings[id]? = state'.holdings[id]?) :
    (Window.prune state (w.startAt now) log).state.holdings[id]? =
      (Window.prune state' (w'.startAt now) log').state.holdings[id]? := by
  obtain ⟨-, s, hs, hstate⟩ := prune_spec state (w.startAt now) log
  obtain ⟨-, s', hs', hstate'⟩ := prune_spec state' (w'.startAt now) log'
  rw [hstate, hstate']
  refine WindowState.holding_commitTakeBack_congr hs hs' ?_ hheld
  refine filter_eq_of_rising hs.rising hs'.rising fun v hv => ?_
  rw [h.mem_staleViews_iff hok, h'.mem_staleViews_iff hok', hlogs v hv]
  simp only [ExpiredBy, hstart]

end Window.Tracks

/-! ## Two windows side by side -/

/-- A result is fine when it is some value. -/
theorem isOk_eq_true_iff {ε α : Type} {result : Except ε α} :
    result.isOk = true ↔ ∃ a, result = .ok a := by
  cases result <;> simp [Except.isOk, Except.toBool]

instance {σ : Type} [ViewSource σ] [HonestSource σ] (c : Chronicle σ) (now : Int64)
    (lookup : Lookup) : Decidable (c.Completes now lookup) :=
  decidable_of_iff' _ (and_congr isOk_eq_true_iff isOk_eq_true_iff).symm

/-- Two windows that are moved to the same times. -/
structure Duet (σ : Type) where
  /-- One of the two. -/
  one : Chronicle σ
  /-- The other. -/
  other : Chronicle σ
  /-- The times that they were moved to, the latest first. -/
  times : List Int64 := []

namespace Duet

/-- A round in which both windows are moved. Each has a log of its own, and the repository gives
both the same answers. -/
structure Round (σ : Type) where
  /-- The log of the one. -/
  log : σ
  /-- The log of the other. -/
  otherLog : σ
  /-- The time. -/
  now : Int64
  /-- The answers of the repository. -/
  lookup : Lookup

variable {σ : Type} [ViewSource σ] [HonestSource σ]

/-- Two empty windows of one length. -/
def start (seconds : Int64) (log otherLog : σ) : Duet σ :=
  { one := .start seconds log, other := .start seconds otherLog }

/-- The windows after a round. -/
def round (d : Duet σ) (r : Round σ) : Duet σ :=
  { one := (d.one.step (.log r.log)).step (.advance r.now r.lookup)
    other := (d.other.step (.log r.otherLog)).step (.advance r.now r.lookup)
    times := r.now :: d.times }

/-- The windows after several rounds. -/
def run (d : Duet σ) (rounds : List (Round σ)) : Duet σ := rounds.foldl round d

/-- A round in which no view arrives late and no scan fails, with logs that hold the same views of a
boost. -/
structure SharesBoost (id : String) (d : Duet σ) (r : Round σ) : Prop where
  news : ∀ v ∈ held r.log, v ∉ held d.one.log → ∀ t ∈ d.times, t < v.cursor.ts
  otherNews : ∀ v ∈ held r.otherLog, v ∉ held d.other.log → ∀ t ∈ d.times, t < v.cursor.ts
  completes : (d.one.step (.log r.log)).Completes r.now r.lookup
  otherCompletes : (d.other.step (.log r.otherLog)).Completes r.now r.lookup
  same_views : ∀ v : View, v.boost? = some id → (v ∈ held r.log ↔ v ∈ held r.otherLog)

-- The times are gone through as a list; they would be searched for among all timestamps otherwise.
instance (id : String) (d : Duet σ) (r : Round σ) : Decidable (d.SharesBoost id r) :=
  decidable_of_iff
    ((∀ v ∈ held r.log, v ∉ held d.one.log → d.times.all (· < v.cursor.ts) = true) ∧
      (∀ v ∈ held r.otherLog, v ∉ held d.other.log → d.times.all (· < v.cursor.ts) = true) ∧
      (d.one.step (.log r.log)).Completes r.now r.lookup ∧
      (d.other.step (.log r.otherLog)).Completes r.now r.lookup ∧
      (∀ v ∈ held r.log, v.boost? = some id → v ∈ held r.otherLog) ∧
      ∀ v ∈ held r.otherLog, v.boost? = some id → v ∈ held r.log) <| by
    simp only [List.all_eq_true, decide_eq_true_eq]
    constructor
    · rintro ⟨hnews, hnews', hcomplete, hcomplete', hone, hother⟩
      exact ⟨hnews, hnews', hcomplete, hcomplete', fun v hv => ⟨(hone v · hv), (hother v · hv)⟩⟩
    · rintro ⟨hnews, hnews', hcomplete, hcomplete', hsame⟩
      exact ⟨hnews, hnews', hcomplete, hcomplete', fun v hv hboost => (hsame v hboost).mp hv,
        fun v hv hboost => (hsame v hboost).mpr hv⟩

/-- Both windows hold the same of a boost, and their watermarks track the same times. -/
structure Alike (id : String) (d : Duet σ) : Prop where
  seconds_eq : d.one.window.seconds = d.other.window.seconds
  holding_eq : d.one.window.state.holdings[id]? = d.other.window.state.holdings[id]?
  tracks : (d.one.window.state = {} ∧ d.other.window.state = {} ∧ d.times = []) ∨
    ∃ start,
      (∃ low high, d.one.window.Tracks d.one.window.state (held d.one.log) d.times d.times
        start low high) ∧
      ∃ low high, d.other.window.Tracks d.other.window.state (held d.other.log) d.times d.times
        start low high

namespace Alike

variable {id : String} {d : Duet σ} {r : Round σ}

/-- Windows that agree on a boost have the same start at every time. -/
theorem startAt_eq (h : d.Alike id) : d.one.window.startAt = d.other.window.startAt := by
  funext t
  simp only [Window.startAt, Window.millis, h.seconds_eq]

/-- Whether they have begun before or begin with the round, both windows meet their new logs with
watermarks that track the times before. -/
theorem begun (h : d.Alike id) (hr : d.SharesBoost id r) :
    ∃ start,
      (∃ low high, d.one.window.Tracks (d.one.window.begin r.now) (held r.log) d.times d.times
        start low high) ∧
      ∃ low high, d.other.window.Tracks (d.other.window.begin r.now) (held r.otherLog) d.times
        d.times start low high := by
  rcases h.tracks with ⟨hone, hother, htimes⟩ | ⟨start, ⟨low, high, hone⟩, low', high', hother⟩
  · rw [htimes]
    refine ⟨.floor (d.one.window.startAt r.now), ⟨_, _, .begin hone r.now _⟩, ?_⟩
    rw [h.startAt_eq]
    exact ⟨_, _, .begin hother r.now _⟩
  · rw [hone.begin_eq, hother.begin_eq]
    exact ⟨start, ⟨low, high, hone.onLog hr.news⟩, low', high', hother.onLog hr.otherNews⟩

/-- A round leaves both windows alike. -/
theorem round (h : d.Alike id) (hr : d.SharesBoost id r) : (d.round r).Alike id := by
  obtain ⟨start, ⟨low, high, hone⟩, low', high', hother⟩ := h.begun hr
  obtain ⟨⟨_, hingest⟩, _, hprune⟩ := hr.completes
  obtain ⟨⟨_, hingest'⟩, _, hprune'⟩ := hr.otherCompletes
  have hbegun : (d.one.window.begin r.now).holdings[id]? =
      (d.other.window.begin r.now).holdings[id]? := by
    rw [Window.holdings_begin, Window.holdings_begin, h.holding_eq]
  have hingested := hone.holding_ingest_eq hother hingest hingest' hr.same_views hbegun
  obtain ⟨high₁, hone₁⟩ := hone.ingest hingest
  obtain ⟨high₁', hother₁⟩ := hother.ingest hingest'
  have hlog := (Window.ingest_spec (d.one.window.begin r.now) r.now r.log r.lookup).1
  have hlog' := (Window.ingest_spec (d.other.window.begin r.now) r.now r.otherLog r.lookup).1
  rw [← hlog] at hone₁
  rw [← hlog'] at hother₁
  have hsame : ∀ v : View, v.boost? = some id →
      (v ∈ held (Window.ingest (d.one.window.begin r.now) r.now r.log r.lookup).log ↔
        v ∈ held (Window.ingest (d.other.window.begin r.now) r.now r.otherLog r.lookup).log) := by
    rw [hlog, hlog']
    exact hr.same_views
  obtain ⟨low₂, hone₂⟩ := hone₁.prune hprune
  obtain ⟨low₂', hother₂⟩ := hother₁.prune hprune'
  rw [hlog, ← Window.held_advance d.one.window r.now r.log r.lookup] at hone₂
  rw [hlog', ← Window.held_advance d.other.window r.now r.otherLog r.lookup] at hother₂
  exact {
    seconds_eq := h.seconds_eq
    holding_eq := hone₁.holding_prune_eq hother₁ h.startAt_eq hprune hprune' hsame hingested
    tracks := .inr ⟨start, ⟨low₂, high₁, hone₂.of_seconds_eq rfl⟩,
      low₂', high₁', hother₂.of_seconds_eq rfl⟩ }

end Alike

/-- Two windows of one length begin empty, are moved to the same times and get the same answers
about the boosts. They hold the same of a boost after every round, if the logs that they meet hold
the same views of it, no view arrives late and no scan fails. -/
theorem holdings_eq_of_sharesBoost (seconds : Int64) (log otherLog : σ) {id : String}
    {rounds : List (Round σ)}
    (hrounds : Along round (SharesBoost id) (start seconds log otherLog) rounds) :
    ((start seconds log otherLog).run rounds).one.window.state.holdings[id]? =
      ((start seconds log otherLog).run rounds).other.window.state.holdings[id]? := by
  have hstart : (start seconds log otherLog).Alike id := ⟨rfl, rfl, .inl ⟨rfl, rfl, rfl⟩⟩
  have halike : ((start seconds log otherLog).run rounds).Alike id :=
    hrounds.preserves (I := Alike id) (fun _ _ hr h => h.round hr) hstart
  exact halike.holding_eq

/-- The views of one boost. -/
def ownViews : List View :=
  [.filed ⟨500, 1⟩ "urn:boost:newsfeed:a", .filed ⟨5000, 1⟩ "urn:boost:newsfeed:a",
    .filed ⟨9000, 1⟩ "urn:boost:newsfeed:a"]

/-- The views of another boost, which only one of the logs has. -/
def otherViews : List View :=
  [.filed ⟨900, 1⟩ "urn:boost:newsfeed:b", .filed ⟨7000, 1⟩ "urn:boost:newsfeed:b",
    .filed ⟨9500, 1⟩ "urn:boost:newsfeed:b"]

/-- A round in which the logs have come to some number of views of each boost that they have. -/
def roundAt (n : Nat) (now : Int64) : Round Memory.Log :=
  { log := .filing (ownViews.take n)
    otherLog := .filing (ownViews.take n ++ otherViews.take n)
    now, lookup := inNewsfeed }

/-- The clock goes back once, and in the end the first views have expired. -/
def backwards : List (Round Memory.Log) :=
  [roundAt 1 1000, roundAt 2 8000, roundAt 2 3000, roundAt 3 16000]

/-- The two windows read up to different views and hold the same of the boost that both logs
have. -/
theorem holdings_eq_of_sharesBoost_backwards :
    Along round (SharesBoost "a") (start 10 ({} : Memory.Log) {}) backwards ∧
      (((start 10 ({} : Memory.Log) {}).run backwards).one.window.state.high,
        ((start 10 ({} : Memory.Log) {}).run backwards).other.window.state.high) =
          (some ⟨9000, 1⟩, some ⟨9500, 1⟩) ∧
      ((start 10 ({} : Memory.Log) {}).run backwards).one.window.state.holdings["a"]? =
        some ⟨[⟨⟨.newsfeed, false⟩, ⟨500, 1⟩, ⟨9000, 1⟩, 1⟩], false⟩ ∧
      ((start 10 ({} : Memory.Log) {}).run backwards).one.window.state.holdings["a"]? =
        ((start 10 ({} : Memory.Log) {}).run backwards).other.window.state.holdings["a"]? := by
  have hrounds : Along round (SharesBoost "a") (start 10 ({} : Memory.Log) {}) backwards := by
    decide +kernel
  have hsame := holdings_eq_of_sharesBoost 10 ({} : Memory.Log) {} hrounds
  exact ⟨hrounds, by decide +kernel, by decide +kernel, hsame⟩

end Duet

end Pacing
