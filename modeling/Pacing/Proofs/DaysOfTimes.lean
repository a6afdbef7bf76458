import Pacing.Proofs.DaySelection

/-!
# Days and the times that fall on them

The days of the calendar tile time. Times of the same length are filed under each day, one day after
the other, so that the day of a time tells how many whole days have passed since 1970-01-01, and the
days from that of one time to that of another are those of the times between the two.
-/

namespace Pacing.Day

-- Sums are those of the core library, whatever else is in scope.
attribute [local instance (high)] Zero.ofOfNat0

variable {ts low high : Int64}

/-- The days of times on dates are ordered as the numbers of whole days passed. -/
theorem ofTimestamp_le_iff (hlow : InCalendar low) (hhigh : InCalendar high) :
    ofTimestamp low ≤ ofTimestamp high ↔ low.toInt / millis ≤ high.toInt / millis := by
  rw [le_iff_number_le (isDate_ofTimestamp hlow) (isDate_ofTimestamp hhigh),
    number_ofTimestamp hlow, number_ofTimestamp hhigh]

/-- Times on dates share a day exactly when as many whole days have passed. -/
theorem ofTimestamp_eq_iff (hlow : InCalendar low) (hhigh : InCalendar high) :
    ofTimestamp low = ofTimestamp high ↔ low.toInt / millis = high.toInt / millis := by
  constructor
  · intro h
    rw [← number_ofTimestamp hlow, ← number_ofTimestamp hhigh, h]
  · intro h
    rw [ofTimestamp_eq hlow, ofTimestamp_eq hhigh, h]

/-- On every day between those of two times lies some time between the two: the start of the day, or
the earlier of the two if the day had begun before it. -/
theorem exists_time {n : Int} (hle : low ≤ high) (hlow : low.toInt / millis ≤ n)
    (hhigh : n ≤ high.toInt / millis) :
    ∃ ts, low ≤ ts ∧ ts ≤ high ∧ ts.toInt / millis = n := by
  have hle' := Int64.le_iff_toInt_le.mp hle
  have hstart : n * millis ≤ high.toInt := (Int.le_ediv_iff_mul_le (by decide)).mp hhigh
  rcases Int.le_total (n * millis) low.toInt with hbegun | hbegins
  · refine ⟨low, Int64.le_refl low, hle, Int.le_antisymm hlow ?_⟩
    exact (Int.le_ediv_iff_mul_le (by decide)).mpr hbegun
  · have hts : (Int64.ofInt (n * millis)).toInt = n * millis :=
      Int64.toInt_ofInt_of_le (Int.le_trans (Int64.le_toInt low) hbegins)
        (Int.lt_of_le_of_lt hstart (Int64.toInt_lt high))
    refine ⟨.ofInt (n * millis), ?_, ?_, ?_⟩
    · rwa [Int64.le_iff_toInt_le, hts]
    · rwa [Int64.le_iff_toInt_le, hts]
    · rw [hts, Int.mul_ediv_cancel n (by decide)]

/-- A time between two times on dates lies on a date. -/
theorem InCalendar.of_le (hlow : InCalendar low) (hhigh : InCalendar high) (hle : low ≤ ts)
    (hle' : ts ≤ high) : InCalendar ts :=
  ⟨Int.le_trans hlow.1 (ediv_millis_le hle), Int.le_trans (ediv_millis_le hle') hhigh.2⟩

/-- The days between those of two times are the days of the times between the two. -/
theorem mem_between_iff_exists_time (hlow : InCalendar low) (hhigh : InCalendar high)
    (hle : low ≤ high) (d : Day) :
    d ∈ between (ofTimestamp low) (ofTimestamp high) ↔
      ∃ ts, low ≤ ts ∧ ts ≤ high ∧ ofTimestamp ts = d := by
  constructor
  · intro hd
    have hdates := between_eq (isDate_ofTimestamp hlow) (isDate_ofTimestamp hhigh)
    rw [hdates] at hd
    obtain ⟨i, -, rfl⟩ := List.mem_map.mp hd
    rw [← hdates, ofNumber_mem_between_iff (isDate_ofTimestamp hlow) (isDate_ofTimestamp hhigh),
      number_ofTimestamp hlow, number_ofTimestamp hhigh] at hd
    obtain ⟨ts, hlow', hhigh', hts⟩ := exists_time hle hd.1 hd.2
    refine ⟨ts, hlow', hhigh', ?_⟩
    rw [ofTimestamp_eq (hlow.of_le hhigh hlow' hhigh'), hts, number_ofTimestamp hlow]
  · rintro ⟨ts, hlow', hhigh', rfl⟩
    exact OneSide.encloses (.inl ⟨hlow, hhigh⟩) hlow' hhigh'

/-- The days between two dates are dates. -/
theorem isDate_of_mem_between {a b d : Day} (ha : a.IsDate) (hb : b.IsDate)
    (hd : d ∈ between a b) : d.IsDate := by
  have hmem := hd
  rw [between_eq ha hb] at hmem
  obtain ⟨i, -, rfl⟩ := List.mem_map.mp hmem
  obtain ⟨hle, hle'⟩ := (ofNumber_mem_between_iff ha hb).mp hd
  exact isDate_ofNumber (Int.le_trans ha.number_bounds.1 hle)
    (Int.le_trans hle' hb.number_bounds.2)

/-- The days between two dates come in order. -/
theorem pairwise_lt_between {a b : Day} (ha : a.IsDate) (hb : b.IsDate) :
    (between a b).Pairwise (· < ·) :=
  pairwise_between.imp_of_mem fun hd hd' hlt =>
    lt_of_number_lt (isDate_of_mem_between ha hb hd) (isDate_of_mem_between ha hb hd') hlt

/-- Between the days of two times lie the days of the times between them and no other, each once
and in order, one more than there are midnights from the one time to the other. The later time may
lie on the last date. -/
theorem days_tile_time (hlow : InCalendar low) (hhigh : InCalendar high) (hle : low ≤ high) :
    ofTimestamp low ≤ ofTimestamp high ∧
      (ofTimestamp low = ofTimestamp high ↔ low.toInt / millis = high.toInt / millis) ∧
      (between (ofTimestamp low) (ofTimestamp high)).Pairwise (· < ·) ∧
      (between (ofTimestamp low) (ofTimestamp high)).length =
        high.toInt / millis - low.toInt / millis + 1 ∧
      ∀ d, d ∈ between (ofTimestamp low) (ofTimestamp high) ↔
        ∃ ts, low ≤ ts ∧ ts ≤ high ∧ ofTimestamp ts = d := by
  have hdate := isDate_ofTimestamp hlow
  have hdate' := isDate_ofTimestamp hhigh
  have hdays := ediv_millis_le hle
  refine ⟨(ofTimestamp_le_iff hlow hhigh).mpr hdays, ofTimestamp_eq_iff hlow hhigh,
    pairwise_lt_between hdate hdate', ?_, mem_between_iff_exists_time hlow hhigh hle⟩
  rw [between_eq hdate hdate', List.length_map, List.length_range, number_ofTimestamp hlow,
    number_ofTimestamp hhigh]
  omega

/-- From the first millisecond of the last date but one to the last millisecond of the last date, where
the walk from day to day finds no next day. -/
theorem days_tile_time_atTheEnd :
    let low : Int64 := 8210266704000000
    let high : Int64 := 8210266876799999
    InCalendar low ∧ InCalendar high ∧ ¬InCalendar (high + 1) ∧ low ≤ high ∧
      between (ofTimestamp low) (ofTimestamp high) = [⟨262142, 12, 30⟩, ⟨262142, 12, 31⟩] ∧
      next? (ofTimestamp high) = none ∧
      ofTimestamp low ≤ ofTimestamp high ∧
      (ofTimestamp low = ofTimestamp high ↔ low.toInt / millis = high.toInt / millis) ∧
      (between (ofTimestamp low) (ofTimestamp high)).Pairwise (· < ·) ∧
      (between (ofTimestamp low) (ofTimestamp high)).length =
        high.toInt / millis - low.toInt / millis + 1 ∧
      ∀ d, d ∈ between (ofTimestamp low) (ofTimestamp high) ↔
        ∃ ts, low ≤ ts ∧ ts ≤ high ∧ ofTimestamp ts = d := by
  intro low high
  have hlow : InCalendar low := by decide
  have hhigh : InCalendar high := by decide
  have hle : low ≤ high := by decide
  exact ⟨hlow, hhigh, by decide, hle, by decide +kernel, by decide +kernel,
    days_tile_time hlow hhigh hle⟩

end Pacing.Day
