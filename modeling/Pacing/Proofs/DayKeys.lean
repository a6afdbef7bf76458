import Mathlib
import Pacing.Proofs.DaySelection

/-!
# Keys of days

The key of a date is its digits as one number, and dates are ordered as their keys are. A key is
taken apart by division toward zero, which finds the digits of positive keys only. So the dates from
year 0 on are found by their keys, and no earlier one is. A range without a bound reaches to the
oldest or newest day of a table by its key: when that day lies before year 0, no day is touched.
-/

namespace Pacing

namespace Day

variable {a b d : Day} {k : Int}

/-- A remainder has the sign of what is divided, so a negative key has no day of a month. -/
theorem toNat_tmod_eq_zero (hk : k < 0) : (k.tmod 100).toNat = 0 := by
  have hmod := Int.tmod_nonneg 100 (show 0 ≤ -k by omega)
  rw [Int.neg_tmod] at hmod
  omega

/-- The keys that are found are those of the dates from year 0 on, each for its own date. -/
theorem ofKey?_eq_some_iff : ofKey? k = some d ↔ d.IsDate ∧ 0 ≤ d.year ∧ d.key = k := by
  constructor
  · intro h
    simp only [ofKey?, Option.ite_none_right_eq_some, Option.some.injEq] at h
    obtain ⟨hdate, rfl⟩ := h
    obtain ⟨-, -, -, -, hday, -⟩ := id hdate
    have hk : 0 ≤ k := by
      by_contra hneg
      have hzero := toNat_tmod_eq_zero (Int.not_le.mp hneg)
      dsimp only at hday
      omega
    refine ⟨hdate, Int.tdiv_nonneg hk (by decide), ?_⟩
    rw [key, Int.tdiv_eq_ediv_of_nonneg hk, Int.tdiv_eq_ediv_of_nonneg hk,
      Int.tmod_eq_emod_of_nonneg hk, Int.tmod_eq_emod_of_nonneg (by omega)]
    dsimp only
    omega
  · rintro ⟨hdate, hyear, rfl⟩
    exact ofKey?_key hdate hyear

/-- Dates are ordered as their keys are. -/
theorem key_lt_key_iff (ha : a.IsDate) (hb : b.IsDate) : a < b ↔ a.key < b.key := by
  refine ⟨key_lt_key ha hb, fun hlt => ?_⟩
  rcases lt_trichotomy a b with h | rfl | h
  · exact h
  · omega
  · have := key_lt_key hb ha h
    omega

/-- Dates are told apart by their keys. -/
theorem eq_of_key_eq (ha : a.IsDate) (hb : b.IsDate) (h : a.key = b.key) : a = b := by
  rcases lt_trichotomy a b with hlt | heq | hlt
  · exact absurd h (Int.ne_of_lt (key_lt_key ha hb hlt))
  · exact heq
  · exact absurd h (Int.ne_of_gt (key_lt_key hb ha hlt))

/-- A date is found by its key exactly from year 0 on. -/
theorem ofKey?_key_eq (hd : d.IsDate) :
    ofKey? d.key = if 0 ≤ d.year then some d else none := by
  split
  · rename_i hyear
    exact ofKey?_key hd hyear
  · rename_i hyear
    rw [Option.eq_none_iff_forall_ne_some]
    intro d' h
    obtain ⟨hd', hyear', hkey⟩ := ofKey?_eq_some_iff.mp h
    rw [eq_of_key_eq hd' hd hkey] at hyear'
    exact hyear hyear'

/-- The days from one date to a later one start with the one and end with the other. -/
theorem ends_between (ha : a.IsDate) (hb : b.IsDate) (hle : a ≤ b) :
    (between a b).head? = some a ∧ (between a b).getLast? = some b := by
  have hnumber := (le_iff_number_le ha hb).mp hle
  have hlength : (b.number - a.number + 1).toNat = (b.number - a.number).toNat + 1 := by omega
  rw [between_eq ha hb, hlength]
  constructor
  · rw [List.head?_map, List.head?_range]
    simp [ofNumber_number ha]
  · rw [List.range_succ, List.map_append, List.map_singleton, List.getLast?_concat,
      show a.number + ((b.number - a.number).toNat : Int) = b.number by omega, ofNumber_number hb]

/-- Between two dates lie the dates that are not earlier than the one nor later than the other. -/
theorem mem_between_iff (ha : a.IsDate) (hb : b.IsDate) (hd : d.IsDate) :
    d ∈ between a b ↔ a ≤ d ∧ d ≤ b := by
  rw [← ofNumber_number hd, ofNumber_mem_between_iff ha hb, ofNumber_number hd,
    le_iff_number_le ha hd, le_iff_number_le hd hb]

end Day

/-! ## The days of a range -/

/-- The day that a range reaches to on one side: that of its bound, or without a bound the last day
on that side that has views. -/
def Bound.dayOr (b : Bound) (d : Day) : Day :=
  match b.cursor? with
  | some c => .ofTimestamp c.ts
  | none => d

/-- Whether that day is found. The last day that has views is found by its key, so only from year 0
on. -/
def Bound.Finds (b : Bound) (d : Day) : Prop := b = .unbounded → 0 ≤ d.year

instance (b : Bound) (d : Day) : Decidable (b.Finds d) := by
  unfold Bound.Finds
  infer_instance

/-- The days that a range touches where views are filed from the oldest day to the newest: those
from one side to the other, or none when a side is not found. -/
def CursorRange.daysWithin (range : CursorRange) (oldest newest : Day) : List Day :=
  if range.low.Finds oldest ∧ range.high.Finds newest then
    Day.between (range.low.dayOr oldest) (range.high.dayOr newest)
  else []

/-- The days that a range touches follow one another. -/
theorem CursorRange.pairwise_daysWithin (range : CursorRange) (oldest newest : Day) :
    (range.daysWithin oldest newest).Pairwise (·.number < ·.number) := by
  unfold daysWithin
  split
  · exact Day.pairwise_between
  · exact .nil

/-- The first and the last of the days that views are filed under. -/
structure Extremes (views : List View) (oldest newest : Day) : Prop where
  exists_oldest : ∃ v ∈ views, v.day = oldest
  exists_newest : ∃ v ∈ views, v.day = newest
  oldest_le : ∀ v ∈ views, oldest ≤ v.day
  le_newest : ∀ v ∈ views, v.day ≤ newest

namespace Extremes

variable {views : List View} {oldest newest : Day}

/-- Where views are filed under dates, the oldest and the newest day are dates. -/
theorem isDate (h : Extremes views oldest newest) (hdates : ∀ v ∈ views, v.day.IsDate) :
    oldest.IsDate ∧ newest.IsDate := by
  obtain ⟨v, hv, rfl⟩ := h.exists_oldest
  obtain ⟨w, hw, rfl⟩ := h.exists_newest
  exact ⟨hdates v hv, hdates w hw⟩

/-- The oldest day is not later than the newest. -/
theorem oldest_le_newest (h : Extremes views oldest newest) : oldest ≤ newest := by
  obtain ⟨v, hv, rfl⟩ := h.exists_oldest
  exact h.le_newest v hv

/-- The oldest and the newest day do not depend on the order of the views. -/
theorem of_perm {views' : List View} (h : Extremes views oldest newest)
    (hperm : views.Perm views') : Extremes views' oldest newest where
  exists_oldest := h.exists_oldest.imp fun _ => .imp_left hperm.mem_iff.mp
  exists_newest := h.exists_newest.imp fun _ => .imp_left hperm.mem_iff.mp
  oldest_le v hv := h.oldest_le v (hperm.mem_iff.mpr hv)
  le_newest v hv := h.le_newest v (hperm.mem_iff.mpr hv)

end Extremes

namespace Store.ViewTable

variable {t : ViewTable} {views : List View} {range : CursorRange} {oldest newest : Day}

/-- The limits of a table of dates are the keys of its oldest and its newest day. -/
theorem exists_extremes (hrows : t.rows = views.map ViewRow.ofView)
    (hdates : ∀ v ∈ views, v.day.IsDate) (hne : views ≠ []) :
    ∃ oldest newest, Extremes views oldest newest ∧
      t.keyLimits = .ok (some oldest.key, some newest.key) := by
  obtain ⟨v, hv, w, hw, hkeys, hlimits⟩ := keyLimits_eq hrows hdates hne
  have hle {a b : Day} (ha : a.IsDate) (hb : b.IsDate) (hkey : a.key ≤ b.key) : a ≤ b :=
    (Day.le_iff_number_le ha hb).mpr (Day.number_le_number_of_key_le ha hb hkey)
  exact ⟨v.day, w.day,
    { exists_oldest := ⟨v, hv, rfl⟩
      exists_newest := ⟨w, hw, rfl⟩
      oldest_le u hu := hle (hdates v hv) (hdates u hu) (hkeys u hu).1
      le_newest u hu := hle (hdates u hu) (hdates w hw) (hkeys u hu).2 }, hlimits⟩

/-- From the key of a date a side of a range reaches to its own day, where that is found. -/
theorem limitDay?_key {b : Bound} {d : Day} (hd : d.IsDate) :
    limitDay? b (some d.key) = if b.Finds d then some (b.dayOr d) else none := by
  cases b with
  | unbounded => simp [limitDay?, Bound.cursor?, Bound.Finds, Bound.dayOr, Day.ofKey?_key_eq hd]
  | included c => simp [limitDay?, Bound.cursor?, Bound.Finds, Bound.dayOr]
  | excluded c => simp [limitDay?, Bound.cursor?, Bound.Finds, Bound.dayOr]

/-- The days that a range touches are told from the oldest and the newest day of the table. -/
theorem daysOf_eq_daysWithin (hlimits : t.keyLimits = .ok (some oldest.key, some newest.key))
    (hdate : oldest.IsDate) (hdate' : newest.IsDate) :
    t.daysOf range = .ok (range.daysWithin oldest newest) := by
  rw [daysOf, hlimits, CursorRange.daysWithin]
  simp only [Except.map, limitDay?_key hdate, limitDay?_key hdate']
  by_cases hlow : range.low.Finds oldest
  · by_cases hhigh : range.high.Finds newest
    · simp [hlow, hhigh]
    · simp [hlow, hhigh]
  · simp [hlow]

end Store.ViewTable

/-- Where the oldest day lies in year 0 or later, a range without bounds touches the days from there
to the newest one, and all views are filed under these. -/
theorem Extremes.daysWithin_unbounded {views : List View} {oldest newest : Day}
    (h : Extremes views oldest newest) (hdates : ∀ v ∈ views, v.day.IsDate)
    (hyear : 0 ≤ oldest.year) :
    (CursorRange.daysWithin {} oldest newest).head? = some oldest ∧
      (CursorRange.daysWithin {} oldest newest).getLast? = some newest ∧
      ∀ v ∈ views, v.day ∈ CursorRange.daysWithin {} oldest newest := by
  obtain ⟨hdate, hdate'⟩ := h.isDate hdates
  have hyear' : 0 ≤ newest.year := by
    rcases h.oldest_le_newest with hlt | rfl
    · rw [Day.lt_iff] at hlt
      omega
    · exact hyear
  have hdays : CursorRange.daysWithin {} oldest newest = Day.between oldest newest :=
    if_pos ⟨fun _ => hyear, fun _ => hyear'⟩
  rw [hdays]
  obtain ⟨hhead, hlast⟩ := Day.ends_between hdate hdate' h.oldest_le_newest
  exact ⟨hhead, hlast, fun v hv => (Day.mem_between_iff hdate hdate' (hdates v hv)).mpr
    ⟨h.oldest_le v hv, h.le_newest v hv⟩⟩

namespace Store.Archive

/-- Keys are faithful from year 0 on: a key is found exactly if it is that of a date of year 0 or
later, and finds this date. All dates are ordered as their keys are. So, whatever was written to the
table, under dates, its least and greatest key are those of the oldest and the newest day, and a
range without a bound reaches to that day if it is in year 0 or later. If the oldest day is in year
0 or later, a query without bounds starts there, ends at the newest day and has all views, as a log
in memory of the same views does and as far as pages go. If the oldest day is earlier, a query
without a lower bound has no views and no error. -/
theorem keys_faithful_from_year_zero (writes : List Write)
    (hne : (writeAll {} writes).written ≠ [])
    (hdates : ∀ v ∈ (writeAll {} writes).written, v.day.IsDate) :
    (∀ k d, Day.ofKey? k = some d ↔ d.IsDate ∧ 0 ≤ d.year ∧ d.key = k) ∧
      (∀ a b : Day, a.IsDate → b.IsDate → (a < b ↔ a.key < b.key)) ∧
      ∃ t oldest newest, (writeAll {} writes).database.views = some t ∧
        Extremes (writeAll {} writes).written oldest newest ∧
        t.keyLimits = .ok (some oldest.key, some newest.key) ∧
        (∀ range, t.daysOf range = .ok (range.daysWithin oldest newest)) ∧
        (∀ size range, ((writeAll {} writes).database.reader size).query range =
          .ok (paged size (range.daysRead (range.daysWithin oldest newest))
            (((Memory.Log.filing (writeAll {} writes).written).query range).1.views.filter
              (·.day ∈ range.daysWithin oldest newest)))) ∧
        (0 ≤ oldest.year →
          (CursorRange.daysWithin {} oldest newest).head? = some oldest ∧
          (CursorRange.daysWithin {} oldest newest).getLast? = some newest ∧
          ∀ size, ((writeAll {} writes).database.reader size).query {} =
            .ok (paged size (CursorRange.daysWithin {} oldest newest)
              ((Memory.Log.filing (writeAll {} writes).written).query {}).1.views)) ∧
        (oldest.year < 0 → ∀ size high,
          ((writeAll {} writes).database.reader size).query ⟨.unbounded, high⟩ =
            .ok ⟨[], none⟩) := by
  refine ⟨fun k d => Day.ofKey?_eq_some_iff, fun a b => Day.key_lt_key_iff, ?_⟩
  generalize hwritten : (writeAll {} writes).written = written at *
  have hstores := stores_writeAll writes
  rw [hwritten] at hstores
  obtain ⟨t, ht, hrows⟩ := Option.map_eq_some_iff.mp hstores.rows_eq
  have hfiled : ∀ v ∈ (Memory.Log.filing written).views, v.day.IsDate :=
    fun v hv => hdates v (hstores.perm.mem_iff.mp hv)
  have hsome : (Memory.Log.filing written).views ≠ [] := fun hnil =>
    hne (hnil ▸ hstores.perm).nil_eq.symm
  obtain ⟨oldest, newest, hextremes, hlimits⟩ := ViewTable.exists_extremes hrows hfiled hsome
  obtain ⟨hdate, hdate'⟩ := hextremes.isDate hfiled
  have hdays (range : CursorRange) : t.daysOf range = .ok (range.daysWithin oldest newest) :=
    ViewTable.daysOf_eq_daysWithin hlimits hdate hdate'
  have hquery (size : UInt64) (range : CursorRange) :
      ((writeAll {} writes).database.reader size).query range =
        .ok (paged size (range.daysRead (range.daysWithin oldest newest))
          (((Memory.Log.filing written).query range).1.views.filter
            (·.day ∈ range.daysWithin oldest newest))) := by
    have htable : ((writeAll {} writes).database.reader size).table = some t := ht
    rw [ViewReader.query_eq_of_daysOf htable hrows (Memory.Log.filing written).ordered hfiled
      (hdays range) (range.pairwise_daysWithin oldest newest), Database.pageSize_reader,
      paged_max_one, Memory.Log.query_filing]
    rfl
  refine ⟨t, oldest, newest, ht, hextremes.of_perm hstores.perm, hlimits, hdays, hquery,
    fun hyear => ?_, fun hyear size high => ?_⟩
  · obtain ⟨hhead, hlast, hmem⟩ := hextremes.daysWithin_unbounded hfiled hyear
    refine ⟨hhead, hlast, fun size => ?_⟩
    rw [hquery, Memory.Log.query_filing, List.filter_eq_self.mpr]
    · rfl
    · intro v hv
      simpa using hmem v (List.mem_filter.mp hv).1
  · have hlost : ¬Bound.unbounded.Finds oldest := fun hfinds => by
      have := hfinds rfl
      omega
    have hnone : CursorRange.daysWithin ⟨.unbounded, high⟩ oldest newest = [] :=
      if_neg fun hboth => hlost hboth.1
    rw [hquery, hnone]
    simp [paged, CursorRange.daysRead]

/-- Views on the last day with a year of four digits and on the day after. -/
def atYear10000 : List Write :=
  [.append [.filed ⟨253402300800000, 1⟩ "b", .filed ⟨253402300799999, 1⟩ "a"]]

/-- The keys 99991231 and 100000101 are found, so a range without bounds has both views. -/
theorem keys_faithful_from_year_zero_year10000 :
    (writeAll {} atYear10000).written ≠ [] ∧
      (∀ v ∈ (writeAll {} atYear10000).written, v.day.IsDate) ∧
      ((writeAll {} atYear10000).database.reader 1).query {} =
        .ok ⟨[.filed ⟨253402300799999, 1⟩ "a", .filed ⟨253402300800000, 1⟩ "b"], none⟩ ∧
      (∀ k d, Day.ofKey? k = some d ↔ d.IsDate ∧ 0 ≤ d.year ∧ d.key = k) ∧
      (∀ a b : Day, a.IsDate → b.IsDate → (a < b ↔ a.key < b.key)) ∧
      ∃ t oldest newest, (writeAll {} atYear10000).database.views = some t ∧
        Extremes (writeAll {} atYear10000).written oldest newest ∧
        t.keyLimits = .ok (some oldest.key, some newest.key) ∧
        (∀ range, t.daysOf range = .ok (range.daysWithin oldest newest)) ∧
        (∀ size range, ((writeAll {} atYear10000).database.reader size).query range =
          .ok (paged size (range.daysRead (range.daysWithin oldest newest))
            (((Memory.Log.filing (writeAll {} atYear10000).written).query range).1.views.filter
              (·.day ∈ range.daysWithin oldest newest)))) ∧
        (0 ≤ oldest.year →
          (CursorRange.daysWithin {} oldest newest).head? = some oldest ∧
          (CursorRange.daysWithin {} oldest newest).getLast? = some newest ∧
          ∀ size, ((writeAll {} atYear10000).database.reader size).query {} =
            .ok (paged size (CursorRange.daysWithin {} oldest newest)
              ((Memory.Log.filing (writeAll {} atYear10000).written).query {}).1.views)) ∧
        (oldest.year < 0 → ∀ size high,
          ((writeAll {} atYear10000).database.reader size).query ⟨.unbounded, high⟩ =
            .ok ⟨[], none⟩) := by
  have hne : (writeAll {} atYear10000).written ≠ [] := by decide +kernel
  have hdates : ∀ v ∈ (writeAll {} atYear10000).written, v.day.IsDate := by decide +kernel
  exact ⟨hne, hdates, by decide +kernel, keys_faithful_from_year_zero atYear10000 hne hdates⟩

/-- Views on the last day before year 0 and on 1970-01-01. -/
def beforeYearZero : List Write :=
  [.append [.filed ⟨-62167219200001, 1⟩ "a", .filed ⟨5, 1⟩ "b"]]

/-- The last day before year 0 is a date that its key does not find. A query without bounds has no
views and no error, where a log in memory has both views, each under the day of its timestamp. -/
theorem key_not_found_before_year_zero :
    let eve : Day := ⟨-1, 12, 31⟩
    eve.IsDate ∧ Day.ofKey? eve.key = none ∧
      FiledByTime (writeAll {} beforeYearZero).written ∧
      (writeAll {} beforeYearZero).database.views.map (·.keyLimits) =
        some (.ok (some eve.key, some 19700101)) ∧
      ((writeAll {} beforeYearZero).database.reader 2500).query {} = .ok ⟨[], none⟩ ∧
      ((Memory.Log.filing (writeAll {} beforeYearZero).written).query {}).1 =
        ⟨[.filed ⟨-62167219200001, 1⟩ "a", .filed ⟨5, 1⟩ "b"], none⟩ := by
  refine ⟨by decide, by decide, ?_, ?_, ?_, ?_⟩ <;> decide +kernel

end Store.Archive

end Pacing
