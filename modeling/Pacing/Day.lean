import Pacing.Numeral

/-!
# Days of the calendar

Views are filed by UTC day, in the Gregorian calendar carried on in both directions. Each date
has a day number, counted from 1970-01-01, so that walking the days between two dates is counting.
A day may also be a triple that is no date, such as a thirteenth month; it has a place in the
order and a key, but no day number of its own.
-/

namespace Pacing

-- Sums are those of the core library, whatever else is in scope.
attribute [local instance (high)] Zero.ofOfNat0

/-- A year, a month and a day of the month, which need not form a date. -/
structure Day where
  /-- The year; year 0 comes before year 1. -/
  year : Int
  /-- The month, from 1 to 12 in a date. -/
  month : Nat
  /-- The day of the month, counted from 1 in a date. -/
  day : Nat
deriving DecidableEq, Repr, Inhabited

namespace Day

/-- Earlier means a lesser year, then a lesser month, then a lesser day. -/
instance : LT Day where
  lt a b := a.year < b.year ∨ a.year = b.year ∧
    (a.month < b.month ∨ a.month = b.month ∧ a.day < b.day)

instance : LE Day := ⟨fun a b => a < b ∨ a = b⟩

/-- Days are ordered by year, then by month, then by day of the month. -/
theorem lt_iff {a b : Day} : a < b ↔ a.year < b.year ∨ a.year = b.year ∧
    (a.month < b.month ∨ a.month = b.month ∧ a.day < b.day) := Iff.rfl

instance : DecidableLT Day := fun _ _ => decidable_of_iff' _ lt_iff

instance : DecidableLE Day := fun a b => inferInstanceAs (Decidable (a < b ∨ a = b))

/-- Whether a year has a 29th of February. -/
def isLeap (year : Int) : Bool := year % 4 == 0 && (year % 100 != 0 || year % 400 == 0)

/-- The lengths of the months of a year. -/
def monthLengths (leap : Bool) : List Nat :=
  [31, if leap then 29 else 28, 31, 30, 31, 30, 31, 31, 30, 31, 30, 31]

/-- The number of days of a month; 0 for a number that is no month. -/
def monthLength (leap : Bool) (month : Nat) : Nat :=
  if month = 0 then 0 else (monthLengths leap)[month - 1]?.getD 0

/-- The number of days of a year before one of its months. -/
def monthStart (leap : Bool) (month : Nat) : Nat := ((monthLengths leap).take (month - 1)).sum

/-- The number of days from the start of year 1 to the start of a year. -/
def yearStart (year : Int) : Int :=
  365 * (year - 1) + (year - 1) / 4 - (year - 1) / 100 + (year - 1) / 400

/-- The number of days from the start of year 1 to 1970-01-01. -/
def epoch : Int := 719162

/-- The first year with dates. -/
def firstYear : Int := -262143

/-- The last year with dates. -/
def lastYear : Int := 262142

/-- Whether the triple is a date of a year in reach. -/
def IsDate (d : Day) : Prop :=
  firstYear ≤ d.year ∧ d.year ≤ lastYear ∧ 1 ≤ d.month ∧ d.month ≤ 12 ∧
    1 ≤ d.day ∧ d.day ≤ monthLength (isLeap d.year) d.month

instance (d : Day) : Decidable d.IsDate := by unfold IsDate; infer_instance

/-- The number of days from 1970-01-01 to a date. -/
def number (d : Day) : Int :=
  yearStart d.year + monthStart (isLeap d.year) d.month + d.day - 1 - epoch

/-- The year that holds the day `n` days after the start of year 1. The mean length of a year
gives a guess that is at most one year off. -/
def yearOf (n : Int) : Int :=
  let guess := n * 400 / 146097 + 1
  if n < yearStart guess then guess - 1
  else if yearStart (guess + 1) ≤ n then guess + 1
  else guess

/-- Finds the month and the day of the month, given the lengths of this and the later months and
the days that have passed since this month began. -/
def monthOf : Nat → List Nat → Nat → Nat × Nat
  | month, [], passed => (month, passed + 1)
  | month, length :: rest, passed =>
    if passed < length then (month, passed + 1) else monthOf (month + 1) rest (passed - length)

/-- The date that lies `n` days after 1970-01-01. -/
def ofNumber (n : Int) : Day :=
  let year := yearOf (n + epoch)
  let (month, day) := monthOf 1 (monthLengths (isLeap year)) (n + epoch - yearStart year).toNat
  ⟨year, month, day⟩

/-- The first date. -/
def first : Day := ⟨firstYear, 1, 1⟩

/-- The last date. -/
def last : Day := ⟨lastYear, 12, 31⟩

/-- The length of a day in milliseconds. -/
def millis : Int := 86400000

/-- Whether a timestamp falls on a date. -/
def InCalendar (ts : Int64) : Prop :=
  first.number ≤ ts.toInt / millis ∧ ts.toInt / millis ≤ last.number

instance (ts : Int64) : Decidable (InCalendar ts) := by unfold InCalendar; infer_instance

/-- The UTC day of a timestamp; timestamps that fall on no date count as 1970-01-01. -/
def ofTimestamp (ts : Int64) : Day :=
  if InCalendar ts then ofNumber (ts.toInt / millis) else ofNumber 0

/-- The decimal digits of year, month and day as one number. -/
def key (d : Day) : Int := d.year * 10000 + d.month * 100 + d.day

/-- The date with a given key. Division and remainder go toward zero, so a negative key has no
positive month or day and belongs to no date. -/
def ofKey? (key : Int) : Option Day :=
  let d : Day := ⟨key.tdiv 10000, ((key.tdiv 100).tmod 100).toNat, (key.tmod 100).toNat⟩
  if d.IsDate then some d else none

/-- The day after a date; none after the last date. -/
def next? (d : Day) : Option Day :=
  if d.day < monthLength (isLeap d.year) d.month then some { d with day := d.day + 1 }
  else if d.month < 12 then some ⟨d.year, d.month + 1, 1⟩
  else if d.year < lastYear then some ⟨d.year + 1, 1, 1⟩
  else none

/-- The next day is in the same month, or else the first of the next month or of the next year. -/
theorem next?_cases {d d' : Day} (h : d.next? = some d') :
    d.day < monthLength (isLeap d.year) d.month ∧ d' = ⟨d.year, d.month, d.day + 1⟩ ∨
      monthLength (isLeap d.year) d.month ≤ d.day ∧ d.month < 12 ∧
        d' = ⟨d.year, d.month + 1, 1⟩ ∨
      monthLength (isLeap d.year) d.month ≤ d.day ∧ 12 ≤ d.month ∧ d.year < lastYear ∧
        d' = ⟨d.year + 1, 1, 1⟩ := by
  unfold next? at h
  split at h
  · rename_i hday
    exact .inl ⟨hday, (Option.some.inj h).symm⟩
  · rename_i hday
    split at h
    · rename_i hmonth
      exact .inr (.inl ⟨Nat.le_of_not_lt hday, hmonth, (Option.some.inj h).symm⟩)
    · rename_i hmonth
      split at h
      · rename_i hyear
        exact .inr (.inr ⟨Nat.le_of_not_lt hday, Nat.le_of_not_lt hmonth, hyear,
          (Option.some.inj h).symm⟩)
      · cases h

/-- No month is longer than 31 days. -/
theorem monthLength_le (leap : Bool) (month : Nat) : monthLength leap month ≤ 31 := by
  have hlengths : ∀ length ∈ monthLengths leap, length ≤ 31 := by cases leap <;> decide
  unfold monthLength
  split
  · decide
  · cases h : (monthLengths leap)[month - 1]? with
    | none => decide
    | some length => exact hlengths length (List.mem_of_getElem? h)

/-- No fewer than the days after a date: each month is given 31. -/
def left (d : Day) : Nat :=
  (lastYear - d.year).toNat * 372 + (12 - d.month) * 31 + (31 - d.day)

/-- The next day is nearer to the last date, which is why a walk over days ends. -/
theorem left_lt {d d' : Day} (h : d.next? = some d') : d'.left < d.left := by
  have hlength := monthLength_le (isLeap d.year) d.month
  rcases next?_cases h with ⟨hday, rfl⟩ | ⟨-, hmonth, rfl⟩ | ⟨-, -, hyear, rfl⟩
  all_goals
    simp only [left]
    omega

/-- Puts the days from `d` on before those that were passed, up to the day `b`, so that the latest
comes first. Past the last date there is no day to go on with. -/
def walk (b d : Day) (passed : List Day) : List Day :=
  if d ≤ b then
    match h : next? d with
    | some d' =>
      have := left_lt h
      walk b d' (d :: passed)
    | none => d :: passed
  else passed
termination_by d.left

/-- The days from one date to another, both included; none when either is no date. -/
def between (a b : Day) : List Day :=
  if a.IsDate ∧ b.IsDate then (walk b a []).reverse else []

/-- The year in at least four places, of which a minus sign takes one. -/
def yearText (year : Int) : List Char :=
  if year < 0 then '-' :: Numeral.pad 3 (Numeral.ofNat year.natAbs)
  else Numeral.pad 4 (Numeral.ofNat year.natAbs)

/-- The text of a day: year, month and day with hyphens between. -/
def render (d : Day) : String :=
  String.ofList (yearText d.year ++ '-' :: Numeral.pad 2 (Numeral.ofNat d.month) ++
    '-' :: Numeral.pad 2 (Numeral.ofNat d.day))

/-- A year begins where the year before it ends. -/
theorem yearStart_succ (year : Int) :
    yearStart (year + 1) = yearStart year + if isLeap year then 366 else 365 := by
  unfold yearStart isLeap
  split
  · rename_i h
    simp only [Bool.and_eq_true, beq_iff_eq, Bool.or_eq_true, bne_iff_ne] at h
    omega
  · rename_i h
    simp only [Bool.and_eq_true, beq_iff_eq, Bool.or_eq_true, bne_iff_ne] at h
    omega

/-- The year found for a day holds that day. -/
theorem yearStart_yearOf_le (n : Int) :
    yearStart (yearOf n) ≤ n ∧ n < yearStart (yearOf n + 1) := by
  simp only [yearOf]
  split
  · simp only [yearStart] at *
    omega
  · split
    · simp only [yearStart] at *
      omega
    · simp only [yearStart] at *
      omega

end Day

end Pacing
