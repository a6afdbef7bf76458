import Mathlib
import Pacing.Day

/-!
# The calendar

Each date has a number and each number a date, and the two ways lead back to where they began. The
order of dates is that of their numbers, and that of their keys.
-/

namespace Pacing.Day

-- Sums are those of the core library, whatever else is in scope.
attribute [local instance (high)] Zero.ofOfNat0

/-! ## Months -/

/-- The months of a year have 365 days in all, or 366 in a leap year. -/
theorem sum_monthLengths (leap : Bool) :
    (monthLengths leap).sum = if leap then 366 else 365 := by
  cases leap <;> rfl

/-- The month that is found for a day of the year holds that day. -/
theorem monthOf_eq (month : Nat) {lengths : List Nat} {passed : Nat} (h : passed < lengths.sum) :
    ∃ i < lengths.length, (lengths.take i).sum ≤ passed ∧
      passed < (lengths.take i).sum + lengths[i]?.getD 0 ∧
      monthOf month lengths passed = (month + i, passed - (lengths.take i).sum + 1) := by
  induction lengths generalizing month passed with
  | nil => simp at h
  | cons length rest ih =>
    by_cases hfirst : passed < length
    · exact ⟨0, by simp, by simp, by simpa using hfirst, by simp [monthOf, hfirst]⟩
    · rw [List.sum_cons] at h
      have hrest : passed - length < rest.sum := by omega
      obtain ⟨i, hi, hle, hlt, heq⟩ := ih (month + 1) hrest
      refine ⟨i + 1, by simpa using hi, ?_, ?_, ?_⟩
      · rw [List.take_succ_cons, List.sum_cons]
        omega
      · rw [List.take_succ_cons, List.sum_cons, List.getElem?_cons_succ]
        omega
      · rw [monthOf, if_neg hfirst, heq, List.take_succ_cons, List.sum_cons, Prod.mk.injEq]
        omega

/-- No month is longer than 31 days, a month ends where the next one begins, and the last one where
the year does. -/
theorem monthStart_add_monthLength_le (leap : Bool) :
    ∀ month ≤ 12, 1 ≤ month → monthLength leap month ≤ 31 ∧
      monthStart leap month + monthLength leap month ≤ (if leap then 366 else 365) ∧
      ∀ month' ≤ 12, month < month' →
        monthStart leap month + monthLength leap month ≤ monthStart leap month' := by
  cases leap <;> decide

/-! ## Years -/

/-- A later year does not begin on an earlier day. -/
theorem yearStart_mono {year year' : Int} (h : year ≤ year') :
    yearStart year ≤ yearStart year' := by
  unfold yearStart
  omega

/-- The days of a month lie in its year. -/
theorem number_bounds {d : Day} (hmonth : 1 ≤ d.month ∧ d.month ≤ 12)
    (hday : 1 ≤ d.day ∧ d.day ≤ monthLength (isLeap d.year) d.month) :
    yearStart d.year ≤ d.number + epoch ∧ d.number + epoch < yearStart (d.year + 1) := by
  have hend := (monthStart_add_monthLength_le (isLeap d.year) d.month hmonth.2 hmonth.1).2.1
  rw [yearStart_succ]
  unfold number
  cases hleap : isLeap d.year <;> simp only [hleap, if_true, Bool.false_eq_true, if_false] at * <;>
    omega

/-! ## Numbers -/

/-- The date of a number is a day of a month, and has that number. -/
theorem ofNumber_spec (n : Int) :
    (1 ≤ (ofNumber n).month ∧ (ofNumber n).month ≤ 12) ∧
      (1 ≤ (ofNumber n).day ∧
        (ofNumber n).day ≤ monthLength (isLeap (ofNumber n).year) (ofNumber n).month) ∧
      (ofNumber n).number = n := by
  obtain ⟨hstart, hend⟩ := yearStart_yearOf_le (n + epoch)
  rw [yearStart_succ] at hend
  have hpassed : (n + epoch - yearStart (yearOf (n + epoch))).toNat <
      (monthLengths (isLeap (yearOf (n + epoch)))).sum := by
    rw [sum_monthLengths]
    split at hend <;> simp_all <;> omega
  obtain ⟨i, hi, hle, hlt, heq⟩ := monthOf_eq 1 hpassed
  have hlength : (monthLengths (isLeap (yearOf (n + epoch)))).length = 12 := rfl
  have hofNumber : ofNumber n = ⟨yearOf (n + epoch), 1 + i,
      (n + epoch - yearStart (yearOf (n + epoch))).toNat -
        ((monthLengths (isLeap (yearOf (n + epoch)))).take i).sum + 1⟩ := by
    simp only [ofNumber, heq]
  rw [hofNumber]
  simp only [number, monthStart, monthLength, Nat.add_sub_cancel_left]
  refine ⟨by omega, ⟨by omega, ?_⟩, by omega⟩
  rw [if_neg (by omega)]
  omega

/-- The day of a number has that number. -/
@[simp] theorem number_ofNumber (n : Int) : (ofNumber n).number = n := (ofNumber_spec n).2.2

/-- The numbers between those of the first and the last date are numbers of dates. -/
theorem isDate_ofNumber {n : Int} (hfirst : first.number ≤ n) (hlast : n ≤ last.number) :
    (ofNumber n).IsDate := by
  obtain ⟨hmonth, hday, hnumber⟩ := ofNumber_spec n
  obtain ⟨hstart, hend⟩ := number_bounds hmonth hday
  rw [hnumber] at hstart hend
  have hfirst' : first.number + epoch = yearStart firstYear := by decide
  have hlast' : last.number + epoch < yearStart (lastYear + 1) := by decide
  refine ⟨?_, ?_, hmonth.1, hmonth.2, hday.1, hday.2⟩
  · by_contra hlt
    have := yearStart_mono (show (ofNumber n).year + 1 ≤ firstYear by omega)
    omega
  · by_contra hlt
    have := yearStart_mono (show lastYear + 1 ≤ (ofNumber n).year by omega)
    omega

/-- Later dates have greater numbers. -/
theorem number_lt_number {a b : Day} (ha : a.IsDate) (hb : b.IsDate) (h : a < b) :
    a.number < b.number := by
  obtain ⟨-, -, hmonth, hmonth', hday, hday'⟩ := ha
  obtain ⟨-, -, hmonth₁, hmonth₁', hday₁, hday₁'⟩ := hb
  rcases lt_iff.mp h with hyear | ⟨hyear, hmonths | ⟨hmonths, hdays⟩⟩
  · have hend := (number_bounds ⟨hmonth, hmonth'⟩ ⟨hday, hday'⟩).2
    have hstart := (number_bounds ⟨hmonth₁, hmonth₁'⟩ ⟨hday₁, hday₁'⟩).1
    have := yearStart_mono (show a.year + 1 ≤ b.year by omega)
    omega
  · have hbefore := (monthStart_add_monthLength_le (isLeap a.year) a.month hmonth' hmonth).2.2
      b.month hmonth₁' hmonths
    unfold number
    rw [← hyear]
    omega
  · unfold number
    rw [← hyear, ← hmonths]
    omega

/-- Of two days that differ one is earlier. -/
theorem lt_trichotomy (a b : Day) : a < b ∨ a = b ∨ b < a := by
  obtain ⟨year, month, day⟩ := a
  obtain ⟨year', month', day'⟩ := b
  simp only [lt_iff, mk.injEq]
  omega

/-- Of two dates the one with the lesser number is earlier. -/
theorem lt_of_number_lt {a b : Day} (ha : a.IsDate) (hb : b.IsDate) (h : a.number < b.number) :
    a < b := by
  rcases lt_trichotomy a b with hlt | rfl | hlt
  · exact hlt
  · exact absurd h (Int.lt_irrefl _)
  · exact absurd (number_lt_number hb ha hlt) (Int.lt_asymm h)

/-- Dates are ordered as their numbers are. -/
theorem le_iff_number_le {a b : Day} (ha : a.IsDate) (hb : b.IsDate) :
    a ≤ b ↔ a.number ≤ b.number := by
  constructor
  · rintro (hlt | rfl)
    · exact Int.le_of_lt (number_lt_number ha hb hlt)
    · exact Int.le_refl _
  · intro hle
    rcases lt_trichotomy a b with hlt | rfl | hlt
    · exact .inl hlt
    · exact .inr rfl
    · exact absurd (number_lt_number hb ha hlt) (Int.not_lt.mpr hle)

/-- Dates are told apart by their numbers. -/
theorem eq_of_number_eq {a b : Day} (ha : a.IsDate) (hb : b.IsDate) (h : a.number = b.number) :
    a = b := by
  rcases lt_trichotomy a b with hlt | heq | hlt
  · exact absurd h (Int.ne_of_lt (number_lt_number ha hb hlt))
  · exact heq
  · exact absurd h.symm (Int.ne_of_lt (number_lt_number hb ha hlt))

/-- The number of a date lies between those of the first and the last date. -/
theorem IsDate.number_bounds {d : Day} (hd : d.IsDate) :
    first.number ≤ d.number ∧ d.number ≤ last.number := by
  obtain ⟨hyear, hyear', hmonth, hmonth', hday, hday'⟩ := hd
  obtain ⟨hstart, hend⟩ := Day.number_bounds ⟨hmonth, hmonth'⟩ ⟨hday, hday'⟩
  have hfirst : first.number + epoch = yearStart firstYear := by decide
  have hlast : last.number + epoch + 1 = yearStart (lastYear + 1) := by decide
  have := yearStart_mono hyear
  have := yearStart_mono (show d.year + 1 ≤ lastYear + 1 by omega)
  omega

/-- A date is the date of its number. -/
theorem ofNumber_number {d : Day} (hd : d.IsDate) : ofNumber d.number = d := by
  obtain ⟨hfirst, hlast⟩ := hd.number_bounds
  exact eq_of_number_eq (isDate_ofNumber hfirst hlast) hd (number_ofNumber _)

/-! ## Successors -/

/-- A month begins where the month before it ends. -/
theorem monthStart_succ (leap : Bool) : ∀ month < 12, 1 ≤ month →
    monthStart leap (month + 1) = monthStart leap month + monthLength leap month ∧
      1 ≤ monthLength leap (month + 1) := by
  cases leap <;> decide

/-- January begins with the year. -/
theorem monthStart_one (leap : Bool) : monthStart leap 1 = 0 := rfl

/-- The last month ends where the year does. -/
theorem monthStart_december (leap : Bool) :
    (monthStart leap 12 + monthLength leap 12 : Int) = if leap then 366 else 365 := by
  cases leap <;> rfl

/-- The next day has the next number. -/
theorem number_next? {d d' : Day} (hd : d.IsDate) (h : d.next? = some d') :
    d'.IsDate ∧ d'.number = d.number + 1 := by
  obtain ⟨hyear, hyear', hmonth, hmonth', hday, hday'⟩ := hd
  rcases next?_cases h with ⟨hlt, rfl⟩ | ⟨hle, hlt, rfl⟩ | ⟨hle, hle', hlt, rfl⟩
  · refine ⟨⟨hyear, hyear', hmonth, hmonth', by dsimp only; omega, hlt⟩, ?_⟩
    unfold number
    dsimp only
    omega
  · obtain ⟨hstart, hlength⟩ := monthStart_succ (isLeap d.year) d.month hlt hmonth
    refine ⟨⟨hyear, hyear', by dsimp only; omega, hlt, Nat.le_refl 1, hlength⟩, ?_⟩
    unfold number
    dsimp only
    omega
  · obtain hmonth : d.month = 12 := Nat.le_antisymm hmonth' hle'
    have hdecember := monthStart_december (isLeap d.year)
    rw [hmonth] at hle hday'
    have hlength : 1 ≤ monthLength (isLeap (d.year + 1)) 1 := by
      cases isLeap (d.year + 1) <;> decide
    refine ⟨⟨by dsimp only; omega, by dsimp only; omega, Nat.le_refl 1, by dsimp only; omega,
      Nat.le_refl 1, hlength⟩, ?_⟩
    unfold number
    dsimp only
    rw [yearStart_succ, monthStart_one, hmonth]
    omega

/-- Only the last date has no next day. -/
theorem number_of_next?_eq_none {d : Day} (hd : d.IsDate) (h : d.next? = none) :
    d.number = last.number := by
  obtain ⟨hyear, hyear', hmonth, hmonth', hday, hday'⟩ := hd
  unfold next? at h
  split_ifs at h with hlength hdecember hlastYear
  have hyear : d.year = lastYear := by omega
  have hmonth : d.month = 12 := by omega
  rw [hyear, hmonth] at hday' hlength
  have hlast : monthLength (isLeap lastYear) 12 = 31 := by decide
  obtain ⟨year, month, day⟩ := d
  obtain rfl : year = lastYear := hyear
  obtain rfl : month = 12 := hmonth
  obtain rfl : day = 31 := by
    dsimp only at hday' hlength
    omega
  rfl

/-! ## Keys -/

/-- Later dates have greater keys. -/
theorem key_lt_key {a b : Day} (ha : a.IsDate) (hb : b.IsDate) (h : a < b) : a.key < b.key := by
  obtain ⟨-, -, hmonth, hmonth', hday, hday'⟩ := ha
  obtain ⟨-, -, hmonth₁, hmonth₁', hday₁, hday₁'⟩ := hb
  have hlength := (monthStart_add_monthLength_le (isLeap a.year) a.month hmonth' hmonth).1
  have hlength' := (monthStart_add_monthLength_le (isLeap b.year) b.month hmonth₁' hmonth₁).1
  unfold key
  rcases lt_iff.mp h with hyear | ⟨hyear, hmonths | ⟨hmonths, hdays⟩⟩ <;> omega

/-- Dates are numbered in the order of their keys. -/
theorem number_le_number_of_key_le {a b : Day} (ha : a.IsDate) (hb : b.IsDate)
    (h : a.key ≤ b.key) : a.number ≤ b.number := by
  rcases lt_trichotomy a b with hlt | rfl | hlt
  · exact Int.le_of_lt (number_lt_number ha hb hlt)
  · exact Int.le_refl _
  · exact absurd (key_lt_key hb ha hlt) (Int.not_lt.mpr h)

/-- A date from year 0 on is found by its key. -/
theorem ofKey?_key {d : Day} (hd : d.IsDate) (hyear : 0 ≤ d.year) : ofKey? d.key = some d := by
  obtain ⟨-, -, hmonth, hmonth', hday, hday'⟩ := id hd
  have hlength := (monthStart_add_monthLength_le (isLeap d.year) d.month hmonth' hmonth).1
  have hkey : 0 ≤ d.key := by
    unfold key
    omega
  have hparts : (⟨d.key.tdiv 10000, ((d.key.tdiv 100).tmod 100).toNat,
      (d.key.tmod 100).toNat⟩ : Day) = d := by
    obtain ⟨year, month, day⟩ := d
    rw [Int.tdiv_eq_ediv_of_nonneg hkey, Int.tdiv_eq_ediv_of_nonneg hkey,
      Int.tmod_eq_emod_of_nonneg hkey, Int.tmod_eq_emod_of_nonneg (by omega)]
    simp only [key, mk.injEq] at *
    omega
  simp only [ofKey?, hparts, if_pos hd]

/-! ## Timestamps -/

/-- A timestamp on a date is filed under the day that its quotient by the length of a day
numbers. -/
theorem ofTimestamp_eq {ts : Int64} (h : InCalendar ts) :
    ofTimestamp ts = ofNumber (ts.toInt / millis) := if_pos h

/-- A timestamp of the calendar is filed under a date. -/
theorem isDate_ofTimestamp {ts : Int64} (h : InCalendar ts) : (ofTimestamp ts).IsDate := by
  rw [ofTimestamp_eq h]
  exact isDate_ofNumber h.1 h.2

/-- The day of a timestamp of the calendar is numbered by its quotient by the length of a day. -/
theorem number_ofTimestamp {ts : Int64} (h : InCalendar ts) :
    (ofTimestamp ts).number = ts.toInt / millis := by
  rw [ofTimestamp_eq h, number_ofNumber]

/-- The days of timestamps are numbered in the order of the timestamps. -/
theorem number_ofTimestamp_le {ts ts' : Int64} (h : InCalendar ts) (h' : InCalendar ts')
    (hle : ts ≤ ts') : (ofTimestamp ts).number ≤ (ofTimestamp ts').number := by
  rw [number_ofTimestamp h, number_ofTimestamp h']
  exact Int.ediv_le_ediv (by decide) (Int64.le_iff_toInt_le.mp hle)

/-! ## Days in a row -/

variable {a b : Day}

/-- The days that are walked are counted by their numbers. -/
theorem walk_eq (ha : a.IsDate) (hb : b.IsDate) (passed : List Day) :
    walk b a passed =
      ((List.range (b.number - a.number + 1).toNat).map fun (i : Nat) =>
        ofNumber (a.number + i)).reverse ++ passed := by
  fun_induction walk b a passed with
  | case1 a passed hle a' hnext _ ih =>
    obtain ⟨ha', hnumber⟩ := number_next? ha hnext
    have hle := (le_iff_number_le ha hb).mp hle
    have hlength : (b.number - a.number + 1).toNat = (b.number - a'.number + 1).toNat + 1 := by
      omega
    have hshift (i : Nat) : a.number + (i + 1 : Nat) = a'.number + i := by omega
    rw [ih ha', hlength, List.range_succ_eq_map, List.map_cons, List.map_map, List.reverse_cons,
      Int.natCast_zero, Int.add_zero, ofNumber_number ha, List.append_assoc]
    simp only [Function.comp_def, Nat.succ_eq_add_one, hshift, List.singleton_append]
  | case2 a passed hle hnext =>
    -- The walk ends here, not because the days wanted end but because the calendar does.
    have hlast := number_of_next?_eq_none ha hnext
    have hle := (le_iff_number_le ha hb).mp hle
    have hle' := hb.number_bounds.2
    rw [show (b.number - a.number + 1).toNat = 1 by omega, List.range_one, List.map_singleton,
      Int.natCast_zero, Int.add_zero, ofNumber_number ha, List.reverse_singleton,
      List.singleton_append]
  | case3 a passed hle =>
    rw [le_iff_number_le ha hb] at hle
    rw [show (b.number - a.number + 1).toNat = 0 by omega, List.range_zero, List.map_nil,
      List.reverse_nil, List.nil_append]

/-- The days between two dates are those of the numbers between theirs. -/
theorem between_eq (ha : a.IsDate) (hb : b.IsDate) :
    between a b = (List.range (b.number - a.number + 1).toNat).map fun (i : Nat) =>
      ofNumber (a.number + i) := by
  rw [between, if_pos ⟨ha, hb⟩, walk_eq ha hb, List.append_nil, List.reverse_reverse]

/-- The days between two dates are in the order of their numbers. -/
theorem pairwise_between : (between a b).Pairwise (·.number < ·.number) := by
  by_cases h : a.IsDate ∧ b.IsDate
  · rw [between_eq h.1 h.2]
    refine List.pairwise_map.mpr (List.pairwise_lt_range.imp fun {i j} hij => ?_)
    rw [number_ofNumber, number_ofNumber]
    omega
  · rw [between, if_neg h]
    exact List.Pairwise.nil

/-- A number lies between those of two dates exactly when its date is one of the days between
them. -/
theorem ofNumber_mem_between_iff {n : Int} (ha : a.IsDate) (hb : b.IsDate) :
    ofNumber n ∈ between a b ↔ a.number ≤ n ∧ n ≤ b.number := by
  rw [between_eq ha hb, List.mem_map]
  constructor
  · rintro ⟨i, hi, heq⟩
    have hn : a.number + i = n := by
      have := congrArg number heq
      rwa [number_ofNumber, number_ofNumber] at this
    rw [List.mem_range] at hi
    omega
  · rintro ⟨hle, hle'⟩
    refine ⟨(n - a.number).toNat, List.mem_range.mpr (by omega), ?_⟩
    congr 1
    omega

/-- The day of a timestamp lies between two dates exactly when its number lies between theirs. -/
theorem ofTimestamp_mem_between_iff {ts : Int64} (h : InCalendar ts) (ha : a.IsDate)
    (hb : b.IsDate) : ofTimestamp ts ∈ between a b ↔
      a.number ≤ (ofTimestamp ts).number ∧ (ofTimestamp ts).number ≤ b.number := by
  rw [number_ofTimestamp h, ofTimestamp_eq h, ofNumber_mem_between_iff ha hb]

end Pacing.Day
