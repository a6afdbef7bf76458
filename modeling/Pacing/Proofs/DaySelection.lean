import Pacing.Proofs.PagedScans
import Pacing.Window

/-!
# The days that a range selects

A query reads the days from that of its lower bound to that of its upper one. A time on no date
counts as 1970-01-01, for views and for bounds alike, so the days of the bounds enclose those of the
times between them exactly when both bounds lie on dates, both before the first date or both past
the last one. Of any other range the views on the wrong side of 1970-01-01 are skipped.
-/

namespace Pacing

namespace Day

-- Sums are those of the core library, whatever else is in scope.
attribute [local instance (high)] Zero.ofOfNat0

variable {ts low high : Int64} {a b : Day}

/-- Whether a time lies before the first date. -/
def BeforeCalendar (ts : Int64) : Prop := ts.toInt / millis < first.number

/-- Whether a time lies past the last date. -/
def PastCalendar (ts : Int64) : Prop := last.number < ts.toInt / millis

/-- Whether two times lie both on dates, both before the first date or both past the last one. -/
def OneSide (low high : Int64) : Prop :=
  InCalendar low ∧ InCalendar high ∨ BeforeCalendar high ∨ PastCalendar low

instance (low high : Int64) : Decidable (OneSide low high) := by
  unfold OneSide BeforeCalendar PastCalendar
  infer_instance

/-- The day of a time on no date has the number 0. -/
theorem number_ofTimestamp_of_not (h : ¬InCalendar ts) : (ofTimestamp ts).number = 0 := by
  rw [ofTimestamp, if_neg h, number_ofNumber]

/-- Every time counts as a date. -/
theorem isDate_ofTimestamp_all (ts : Int64) : (ofTimestamp ts).IsDate := by
  by_cases h : InCalendar ts
  · exact isDate_ofTimestamp h
  · rw [ofTimestamp, if_neg h]
    exact isDate_ofNumber (by decide) (by decide)

/-- The day of a time is that of its number. -/
theorem ofNumber_number_ofTimestamp (ts : Int64) :
    ofNumber (ofTimestamp ts).number = ofTimestamp ts := by
  by_cases h : InCalendar ts
  · rw [number_ofTimestamp h, ofTimestamp_eq h]
  · rw [number_ofTimestamp_of_not h, ofTimestamp, if_neg h]

/-- The day of a time is among those between the days of two others exactly when its number is. -/
theorem ofTimestamp_mem_between (ts low high : Int64) :
    ofTimestamp ts ∈ between (ofTimestamp low) (ofTimestamp high) ↔
      (ofTimestamp low).number ≤ (ofTimestamp ts).number ∧
        (ofTimestamp ts).number ≤ (ofTimestamp high).number := by
  rw [← ofNumber_mem_between_iff (isDate_ofTimestamp_all low) (isDate_ofTimestamp_all high),
    ofNumber_number_ofTimestamp]

/-- A later timestamp does not fall on an earlier day. -/
theorem ediv_millis_le (hle : low ≤ high) : low.toInt / millis ≤ high.toInt / millis :=
  Int.ediv_le_ediv (by decide) (Int64.le_iff_toInt_le.mp hle)

/-- Times between two on one side are filed between them. -/
theorem OneSide.encloses (h : OneSide low high) (hlow : low ≤ ts) (hhigh : ts ≤ high) :
    ofTimestamp ts ∈ between (ofTimestamp low) (ofTimestamp high) := by
  rw [ofTimestamp_mem_between]
  have hlow' := ediv_millis_le hlow
  have hhigh' := ediv_millis_le hhigh
  rcases h with ⟨hinlow, hinhigh⟩ | hbefore | hpast
  · have hin : InCalendar ts := ⟨Int.le_trans hinlow.1 hlow', Int.le_trans hhigh' hinhigh.2⟩
    rw [number_ofTimestamp hinlow, number_ofTimestamp hin, number_ofTimestamp hinhigh]
    exact ⟨hlow', hhigh'⟩
  · have hout {ts' : Int64} (hle : ts'.toInt / millis ≤ high.toInt / millis) : ¬InCalendar ts' :=
      fun hin => absurd (Int.le_trans hin.1 hle) (Int.not_le.mpr hbefore)
    rw [number_ofTimestamp_of_not (hout (Int.le_trans hlow' hhigh')),
      number_ofTimestamp_of_not (hout hhigh'), number_ofTimestamp_of_not (hout (Int.le_refl _))]
    exact ⟨Int.le_refl _, Int.le_refl _⟩
  · have hout {ts' : Int64} (hle : low.toInt / millis ≤ ts'.toInt / millis) : ¬InCalendar ts' :=
      fun hin => absurd (Int.le_trans hle hin.2) (Int.not_le.mpr hpast)
    rw [number_ofTimestamp_of_not (hout (Int.le_refl _)), number_ofTimestamp_of_not (hout hlow'),
      number_ofTimestamp_of_not (hout (Int.le_trans hlow' hhigh'))]
    exact ⟨Int.le_refl _, Int.le_refl _⟩

/-- The first time on a date. -/
def firstTime : Int64 := -8334601228800000

/-- The last time on a date. -/
def lastTime : Int64 := 8210266876799999

/-- From the first time on timestamps do not fall before the first date. -/
theorem firstTime_le_iff : firstTime ≤ ts ↔ first.number ≤ ts.toInt / millis := by
  rw [Int.le_ediv_iff_mul_le (by decide), Int64.le_iff_toInt_le,
    show firstTime.toInt = first.number * millis by decide]

/-- Up to the last time timestamps do not fall past the last date. -/
theorem le_lastTime_iff : ts ≤ lastTime ↔ ts.toInt / millis ≤ last.number := by
  rw [← Int.lt_add_one_iff, Int.ediv_lt_iff_lt_mul (by decide), Int64.le_iff_toInt_le,
    ← Int.lt_add_one_iff, show lastTime.toInt + 1 = (last.number + 1) * millis by decide]

/-- The timestamps of the calendar are those from its first time to its last. -/
theorem inCalendar_iff : InCalendar ts ↔ firstTime ≤ ts ∧ ts ≤ lastTime := by
  rw [firstTime_le_iff, le_lastTime_iff, InCalendar]

/-- If all times between two are filed between them, then the two lie on one side: otherwise the
first or the last time on a date lies between them and is filed elsewhere. -/
theorem oneSide_of_encloses
    (h : ∀ ts, low ≤ ts → ts ≤ high →
      ofTimestamp ts ∈ between (ofTimestamp low) (ofTimestamp high)) : OneSide low high := by
  by_contra hside
  simp only [OneSide, BeforeCalendar, PastCalendar, not_or, Int.not_lt] at hside
  obtain ⟨hboth, hhigh, hlow⟩ := hside
  rw [← firstTime_le_iff] at hhigh
  rw [← le_lastTime_iff] at hlow
  by_cases hinlow : InCalendar low
  · have hinhigh : ¬InCalendar high := fun hin => hboth ⟨hinlow, hin⟩
    have hlast : lastTime ≤ high := by
      refine (Int64.le_total high lastTime).resolve_left fun hle => ?_
      exact hinhigh (inCalendar_iff.mpr ⟨hhigh, hle⟩)
    have hmem := (ofTimestamp_mem_between _ _ _).mp (h lastTime hlow hlast)
    rw [number_ofTimestamp_of_not hinhigh] at hmem
    exact absurd hmem.2 (by decide)
  · have hfirst : low ≤ firstTime := by
      refine (Int64.le_total firstTime low).resolve_left fun hle => ?_
      exact hinlow (inCalendar_iff.mpr ⟨hle, hlow⟩)
    have hmem := (ofTimestamp_mem_between _ _ _).mp (h firstTime hfirst hhigh)
    rw [number_ofTimestamp_of_not hinlow] at hmem
    exact absurd hmem.1 (by decide)

/-- All times between two are filed between them exactly when the two lie on one side. -/
theorem encloses_iff_oneSide :
    (∀ ts, low ≤ ts → ts ≤ high → ofTimestamp ts ∈ between (ofTimestamp low) (ofTimestamp high)) ↔
      OneSide low high :=
  ⟨oneSide_of_encloses, fun h _ => h.encloses⟩

end Day

/-! ## Scans of some days -/

namespace Store

variable {t : ViewTable} {views : List View} {low high : Bound} {range : CursorRange}
  {first last : Cursor} {days : List Day}

/-- A range with two bounds touches the days from that of its lower bound to that of its upper one,
whatever the table holds. -/
theorem ViewTable.daysOf_eq_between (hrows : t.rows = views.map ViewRow.ofView)
    (hdates : ∀ v ∈ views, v.day.IsDate) (hlow : range.low.cursor? = some first)
    (hhigh : range.high.cursor? = some last) :
    t.daysOf range = .ok (Day.between (.ofTimestamp first.ts) (.ofTimestamp last.ts)) := by
  have hlimits : ∃ limits, t.keyLimits = .ok limits := by
    by_cases hne : views = []
    · refine ⟨(none, none), ?_⟩
      rw [keyLimits, hrows, hne]
      rfl
    · obtain ⟨v, -, w, -, -, hlimits⟩ := keyLimits_eq hrows hdates hne
      exact ⟨_, hlimits⟩
  obtain ⟨limits, hlimits⟩ := hlimits
  simp only [daysOf, hlimits, Except.map, limitDay?, hlow, hhigh]

/-- Views that are filed under the days of their timestamps. -/
def FiledByTime (views : List View) : Prop :=
  ∀ v ∈ views, v.day = Day.ofTimestamp v.cursor.ts

instance (views : List View) : Decidable (FiledByTime views) := by
  unfold FiledByTime
  infer_instance

/-- A view under the day of its timestamp is filed under a date, as timestamps off the calendar
count as 1970-01-01. -/
theorem FiledByTime.isDate (h : FiledByTime views) {v : View} (hv : v ∈ views) :
    v.day.IsDate := by
  rw [h v hv]
  exact Day.isDate_ofTimestamp_all _

/-- A query between two bounds has those views of its range that are filed between them. -/
theorem ViewReader.query_eq_filter {reader : ViewReader} (htable : reader.table = some t)
    (hrows : t.rows = views.map ViewRow.ofView) (hordered : views.Pairwise View.Before)
    (hdates : ∀ v ∈ views, v.day.IsDate) (hlow : range.low.cursor? = some first)
    (hhigh : range.high.cursor? = some last) :
    let days := Day.between (.ofTimestamp first.ts) (.ofTimestamp last.ts)
    reader.query range = .ok (paged reader.pageSize (range.daysRead days)
      ((views.filter (·.cursor ∈ range)).filter (·.day ∈ days))) :=
  query_eq_of_daysOf htable hrows hordered hdates
    (ViewTable.daysOf_eq_between hrows hdates hlow hhigh) Day.pairwise_between

end Store

namespace Store.Archive

/-- Whatever was written to the table, each view under the day of its timestamp, a range with two
bounds touches a day of the table exactly when its number lies between those of the days of the
bounds. A query has the views of these days out of what a log in memory of the same views answers,
as far as pages go. All times between the bounds are filed under these days exactly when the bounds
lie on one side, and then the query has every view of the range, as the log in memory does. -/
theorem days_cover_iff_oneSide (writes : List Write) (size : UInt64) (range : CursorRange)
    {first last : Cursor} (hlow : range.low.cursor? = some first)
    (hhigh : range.high.cursor? = some last) (hfiled : FiledByTime (writeAll {} writes).written) :
    ∃ t days, (writeAll {} writes).database.views = some t ∧ t.daysOf range = .ok days ∧
      (∀ v ∈ (writeAll {} writes).written, v.cursor ∈ range → (v.day ∈ days ↔
        (Day.ofTimestamp first.ts).number ≤ v.day.number ∧
          v.day.number ≤ (Day.ofTimestamp last.ts).number)) ∧
      ((writeAll {} writes).database.reader size).query range =
        .ok (paged size (range.daysRead days)
          (((Memory.Log.filing (writeAll {} writes).written).query range).1.views.filter
            (·.day ∈ days))) ∧
      ((∀ ts, first.ts ≤ ts → ts ≤ last.ts → Day.ofTimestamp ts ∈ days) ↔
        Day.OneSide first.ts last.ts) ∧
      (Day.OneSide first.ts last.ts →
        (∀ v ∈ (writeAll {} writes).written, v.cursor ∈ range → v.day ∈ days) ∧
        ((writeAll {} writes).database.reader size).query range =
          .ok (paged size (range.daysRead days)
            ((Memory.Log.filing (writeAll {} writes).written).query range).1.views)) := by
  generalize hwritten : (writeAll {} writes).written = written at *
  have hstores := stores_writeAll writes
  rw [hwritten] at hstores
  obtain ⟨t, ht, hrows⟩ := Option.map_eq_some_iff.mp hstores.rows_eq
  have hmem : ∀ v, v ∈ (Memory.Log.filing written).views ↔ v ∈ written :=
    fun v => hstores.perm.mem_iff
  have hdates : ∀ v ∈ (Memory.Log.filing written).views, v.day.IsDate :=
    fun v hv => hfiled.isDate ((hmem v).mp hv)
  have htable : ((writeAll {} writes).database.reader size).table = some t := ht
  have hquery := ViewReader.query_eq_filter htable hrows (Memory.Log.filing written).ordered hdates
    hlow hhigh
  simp only [Database.pageSize_reader, paged_max_one] at hquery
  have hscan : ((Memory.Log.filing written).query range).1 =
      ⟨(Memory.Log.filing written).views.filter (·.cursor ∈ range), none⟩ := by
    simp only [Memory.Log.query, Memory.Log.failAfter_filing, Memory.Log.inRange]
  have hcover : Day.OneSide first.ts last.ts → ∀ v ∈ written, v.cursor ∈ range →
      v.day ∈ Day.between (.ofTimestamp first.ts) (.ofTimestamp last.ts) := by
    intro hside v hv hrange
    rw [hfiled v hv]
    exact hside.encloses (Cursor.ts_le_of_le (hrange.1.le hlow))
      (Cursor.ts_le_of_le (hrange.2.le hhigh))
  refine ⟨t, _, ht, ViewTable.daysOf_eq_between hrows hdates hlow hhigh, ?_, ?_,
    Day.encloses_iff_oneSide, fun hside => ⟨hcover hside, ?_⟩⟩
  · intro v hv _
    rw [hfiled v hv]
    exact Day.ofTimestamp_mem_between _ _ _
  · rw [hquery, hscan]
  · rw [hquery, hscan, List.filter_eq_self.mpr]
    intro v hv
    obtain ⟨hv, hrange⟩ := List.mem_filter.mp hv
    simpa using hcover hside v ((hmem v).mp hv) (by simpa using hrange)

/-- Views before and after 1970-01-01 began. -/
def aroundEpoch : List Write := [.append [.filed ⟨5, 1⟩ "b", .filed ⟨-1, 1⟩ "a"]]

/-- The range of the first intake of a window that reaches back beyond the first date. -/
def sinceEver : CursorRange :=
  Intake.range (.floor (({ seconds := Int64.maxValue } : Window).startAt 10)) 10

/-- A range from before the first date up to 1970-01-01 touches that day alone. -/
theorem days_cover_iff_oneSide_sinceEver :
    let first : Cursor := .floor (({ seconds := Int64.maxValue } : Window).startAt 10)
    let last : Cursor := .ceiling 10
    sinceEver.low.cursor? = some first ∧ sinceEver.high.cursor? = some last ∧
      FiledByTime (writeAll {} aroundEpoch).written ∧ ¬Day.OneSide first.ts last.ts ∧
      ((writeAll {} aroundEpoch).database.reader 1).query sinceEver =
        .ok ⟨[.filed ⟨5, 1⟩ "b"], none⟩ ∧
      ∃ t days, (writeAll {} aroundEpoch).database.views = some t ∧
        t.daysOf sinceEver = .ok days ∧
        (∀ v ∈ (writeAll {} aroundEpoch).written, v.cursor ∈ sinceEver → (v.day ∈ days ↔
          (Day.ofTimestamp first.ts).number ≤ v.day.number ∧
            v.day.number ≤ (Day.ofTimestamp last.ts).number)) ∧
        ((writeAll {} aroundEpoch).database.reader 1).query sinceEver =
          .ok (paged 1 (sinceEver.daysRead days)
            (((Memory.Log.filing (writeAll {} aroundEpoch).written).query sinceEver).1.views.filter
              (·.day ∈ days))) ∧
        ((∀ ts, first.ts ≤ ts → ts ≤ last.ts → Day.ofTimestamp ts ∈ days) ↔
          Day.OneSide first.ts last.ts) ∧
        (Day.OneSide first.ts last.ts →
          (∀ v ∈ (writeAll {} aroundEpoch).written, v.cursor ∈ sinceEver → v.day ∈ days) ∧
          ((writeAll {} aroundEpoch).database.reader 1).query sinceEver =
            .ok (paged 1 (sinceEver.daysRead days)
              ((Memory.Log.filing (writeAll {} aroundEpoch).written).query sinceEver).1.views)) := by
  intro first last
  have hfiled : FiledByTime (writeAll {} aroundEpoch).written := by decide +kernel
  exact ⟨rfl, rfl, hfiled, by decide, by decide +kernel,
    days_cover_iff_oneSide aroundEpoch 1 sinceEver rfl rfl hfiled⟩

/-- A view before 1970-01-01 is in the range, and a log in memory has it. The days of the range leave
it out, and so does the query, without an error. -/
theorem day_missed_sinceEver :
    let v : View := .filed ⟨-1, 1⟩ "a"
    FiledByTime (writeAll {} aroundEpoch).written ∧
      v ∈ (writeAll {} aroundEpoch).written ∧ v.cursor ∈ sinceEver ∧
      v ∈ ((Memory.Log.filing (writeAll {} aroundEpoch).written).query sinceEver).1.views ∧
      ∃ t days, (writeAll {} aroundEpoch).database.views = some t ∧
        t.daysOf sinceEver = .ok days ∧ v.day ∉ days ∧
        ((writeAll {} aroundEpoch).database.reader 1).query sinceEver =
          .ok ⟨[.filed ⟨5, 1⟩ "b"], none⟩ := by
  intro v
  have hdays : (writeAll {} aroundEpoch).database.views.map (·.daysOf sinceEver) =
      some (.ok [⟨1970, 1, 1⟩]) := by decide +kernel
  obtain ⟨t, ht, hdays⟩ := Option.map_eq_some_iff.mp hdays
  exact ⟨by decide +kernel, by decide +kernel, by decide +kernel, by decide +kernel, t, _, ht,
    hdays, by decide, by decide +kernel⟩

end Store.Archive

end Pacing
