import Pacing.Proofs.Calendar
import Pacing.Proofs.ScanSemantics
import Pacing.Proofs.StoredViews

/-!
# Scans in pages

A query of the table of views goes through days, and through each day in pages. Whatever the size
of a page that memory can be asked for, what it reads of a day are the views of that day in the
range, in the order of their cursors. A larger page overflows before its first row is read. When
views are filed under the days of their timestamps, the days follow each other as the cursors do, so
that the whole scan is in order too and has every view of the range.
-/

namespace Pacing

/-- Past a rising list's first items come those that lie past the last of these. -/
theorem filter_past_eq_drop {views : List View} (h : views.Pairwise (·.cursor < ·.cursor)) {n : Nat}
    {last : View} (hlast : (views.take n).getLast? = some last) :
    views.filter (last.cursor < ·.cursor) = views.drop n := by
  obtain ⟨front, hfront⟩ := List.getLast?_eq_some_iff.mp hlast
  have hsplit : views = front ++ [last] ++ views.drop n := by
    rw [← hfront, List.take_append_drop]
  rw [hsplit, List.append_assoc] at h
  obtain ⟨-, hrest, hfrontlt⟩ := List.pairwise_append.mp h
  have hfrontnil : front.filter (last.cursor < ·.cursor) = [] := by
    refine List.filter_eq_nil_iff.mpr fun v hv => ?_
    have := hfrontlt v hv last (by simp)
    simpa using not_lt.mpr (le_of_lt this)
  have hkept : (views.drop n).filter (last.cursor < ·.cursor) = views.drop n :=
    List.filter_eq_self.mpr fun v hv => by simpa using (List.pairwise_cons.mp hrest).1 v hv
  conv_lhs => rw [hsplit]
  rw [List.filter_append, List.filter_append, hfrontnil, hkept]
  simp

/-- A cursor that respects a bound from below lies no earlier. -/
theorem Bound.Below.le {b : Bound} {c c' : Cursor} (h : b.Below c') (hb : b.cursor? = some c) :
    c ≤ c' := by
  cases b with
  | unbounded => cases hb
  | included low =>
    cases hb
    exact h
  | excluded low =>
    cases hb
    exact le_of_lt h

/-- A cursor that respects a bound from above lies no later. -/
theorem Bound.Above.le {b : Bound} {c c' : Cursor} (h : b.Above c') (hb : b.cursor? = some c) :
    c' ≤ c := by
  cases b with
  | unbounded => cases hb
  | included high =>
    cases hb
    exact h
  | excluded high =>
    cases hb
    exact le_of_lt h

/-- No view comes before itself. -/
theorem View.not_before_self (v : View) : ¬v.Before v := by
  simp only [View.Before, Day.lt_iff, Cursor.lt_iff_position]
  omega

/-- Views in the order of a log are told by which they are. -/
theorem eq_of_before {views views' : List View} (h : views.Pairwise View.Before)
    (h' : views'.Pairwise View.Before) (hmem : ∀ v, v ∈ views ↔ v ∈ views') : views = views' := by
  have hirrefl : Std.Irrefl View.Before := ⟨View.not_before_self⟩
  have hantisymm : Std.Antisymm View.Before :=
    ⟨fun u v huv hvu => absurd (Memory.Log.before_trans huv hvu) u.not_before_self⟩
  exact h.eq_of_mem_iff h' fun v => hmem v

/-- The days that a query reads of those that its range touches: none if the range is empty by its
bounds. -/
def CursorRange.daysRead (range : CursorRange) (days : List Day) : List Day :=
  if range.isEmpty then [] else days

namespace Store

variable {t : ViewTable} {views : List View} {d : Day} {low high : Bound} {range : CursorRange}
  {size : UInt64} {days : List Day}

/-! ## One day -/

/-- The row of a view is filed under the day of the view. -/
theorem ViewRow.isFiledUnder_ofView {v : View} : (ofView v).IsFiledUnder d ↔ v.day = d := by
  constructor
  · rintro ⟨hyear, hmonth, hday⟩
    have hyear' := Cell.integer.inj hyear
    have hmonth' := Int.ofNat.inj (Cell.integer.inj hmonth)
    have hday' := Int.ofNat.inj (Cell.integer.inj hday)
    cases hd : v.day
    cases d
    simp_all
  · rintro rfl
    exact ⟨rfl, rfl, rfl⟩

/-- The rows of views of a day are read as these views. -/
theorem mapM_view (h : ∀ v ∈ views, v.day = d) :
    (views.map ViewRow.ofView).mapM (·.view d) = .ok views := by
  induction views with
  | nil => rfl
  | cons v rest ih =>
    obtain ⟨rfl, hrest⟩ := List.forall_mem_cons.mp h
    rw [List.map_cons, List.mapM_cons, ViewRow.view_ofView, ih hrest]
    rfl

/-- The views of a day that lie between two bounds. -/
def onDay (views : List View) (d : Day) (low high : Bound) : List View :=
  views.filter fun v => v.day = d ∧ low.Below v.cursor ∧ high.Above v.cursor

/-- The views of a day between two bounds are those of the day with cursors between them. -/
theorem mem_onDay {v : View} : v ∈ onDay views d low high ↔
    v ∈ views ∧ v.day = d ∧ low.Below v.cursor ∧ high.Above v.cursor := by
  simp only [onDay, List.mem_filter, decide_eq_true_eq]

/-- Among views in order, those of one day have rising cursors. -/
theorem onDay_rising (hordered : views.Pairwise View.Before) :
    (onDay views d low high).Pairwise (·.cursor < ·.cursor) := by
  refine (hordered.filter _).imp_of_mem fun {v w} hv hw hbefore => ?_
  rcases hbefore with hday | ⟨-, hcursor⟩
  · rw [(mem_onDay.mp hv).2.1, (mem_onDay.mp hw).2.1, Day.lt_iff] at hday
    omega
  · exact hcursor

/-- A page that fits into memory has the first views between its bounds. -/
theorem ViewTable.page_eq (hrows : t.rows = views.map ViewRow.ofView) (hfits : PageFits size) :
    t.page d low high size = .ok ((onDay views d low high).take size.toNat) := by
  have hchosen : (t.rows.filter fun r =>
      r.IsFiledUnder d ∧ r.respectsLow low ∧ r.respectsHigh high) =
        (onDay views d low high).map ViewRow.ofView := by
    rw [hrows, List.filter_map, onDay]
    congr 1
    refine List.filter_congr fun v _ => ?_
    simp only [Function.comp_apply, ViewRow.isFiledUnder_ofView,
      ViewRow.respectsLow_iff (ViewRow.wordSized_ofView v) (ViewRow.view_ofView v),
      ViewRow.respectsHigh_iff (ViewRow.wordSized_ofView v) (ViewRow.view_ofView v)]
  have hread : ((onDay views d low high).map ViewRow.ofView |>.take size.toNat).mapM (·.view d) =
      .ok ((onDay views d low high).take size.toNat) := by
    rw [← List.map_take]
    exact mapM_view fun v hv => (mem_onDay.mp (List.mem_of_mem_take hv)).2.1
  rw [page, if_pos hfits]
  simp only [hchosen, hread, Except.mapError]

/-- The views between two bounds, but past one of them, are the views past it. -/
theorem filter_past_onDay {last : View} (hlast : low.Below last.cursor) :
    onDay views d (.excluded last.cursor) high =
      (onDay views d low high).filter (last.cursor < ·.cursor) := by
  rw [onDay, onDay, List.filter_filter]
  refine List.filter_congr fun v _ => ?_
  rw [← Bool.decide_and, decide_eq_decide]
  exact ⟨fun ⟨hd, hlt, hhigh⟩ => ⟨hlt, hd, hlast.of_lt hlt, hhigh⟩,
    fun ⟨hlt, hd, _, hhigh⟩ => ⟨hd, hlt, hhigh⟩⟩

/-- Reading a day in pages reads all its views between the bounds, if the pages fit into memory and
there are more of them than views. -/
theorem ViewTable.readPages_eq (hrows : t.rows = views.map ViewRow.ofView)
    (hordered : views.Pairwise View.Before) (hsize : 0 < size) (hfits : PageFits size) {pages : Nat}
    (hpages : (onDay views d low high).length < pages) :
    t.readPages d high size pages low = ⟨onDay views d low high, none⟩ := by
  have hpos : 0 < size.toNat := UInt64.lt_iff_toNat_lt.mp hsize
  induction pages generalizing low with
  | zero => exact absurd hpages (Nat.not_lt_zero _)
  | succ pages ih =>
    rw [readPages, page_eq hrows hfits]
    cases hlast : ((onDay views d low high).take size.toNat).getLast? with
    | none =>
      have hnil : onDay views d low high = [] := by
        have := List.getLast?_eq_none_iff.mp hlast
        rw [List.take_eq_nil_iff] at this
        exact this.resolve_left (by omega)
      simp [hnil]
    | some last =>
      simp only [hlast, List.length_take]
      split
      · rename_i hshort
        rw [List.take_of_length_le (by omega)]
      · rename_i hfull
        have hmem := List.mem_of_mem_take (List.mem_of_getLast? hlast)
        have hbelow : low.Below last.cursor := (mem_onDay.mp hmem).2.2.1
        -- Past the last view of a full page lie the views that the page left, fewer than before.
        have hrest : onDay views d (.excluded last.cursor) high =
            (onDay views d low high).drop size.toNat := by
          rw [filter_past_onDay hbelow]
          exact filter_past_eq_drop (onDay_rising hordered) hlast
        rw [ih (by rw [hrest, List.length_drop]; omega), hrest, followedBy]
        simp

/-! ## Several days -/

/-- What a scan of days hands out when it comes in pages of a given size: all there is, but nothing
if there is a day to read and a page does not fit into memory. -/
def paged (size : UInt64) (days : List Day) (views : List View) : Scan :=
  if days = [] ∨ PageFits size then ⟨views, none⟩ else ⟨[], some .capacityOverflow⟩

/-- Where a page fits, a paged scan yields all of the views. -/
theorem paged_of_fits (h : PageFits size) : paged size days views = ⟨views, none⟩ :=
  if_pos (.inr h)

/-- A scan whose pages do not fit into memory has no views, and overflows if it reads a day. -/
theorem paged_of_not_fits (h : ¬PageFits size) (hnone : days = [] → views = []) :
    paged size days views = ⟨[], if days = [] then none else some .capacityOverflow⟩ := by
  by_cases hdays : days = []
  · simp [paged, hdays, hnone hdays]
  · simp [paged, hdays, h]

/-- Reading a day page by page yields its views in the range, each once and in order. -/
theorem ViewTable.readDay_eq (hrows : t.rows = views.map ViewRow.ofView)
    (hordered : views.Pairwise View.Before) (hsize : 0 < size) (hfits : PageFits size) :
    t.readDay range size d = ⟨onDay views d range.low range.high, none⟩ := by
  have hlength : (onDay views d range.low range.high).length ≤ t.rows.length := by
    rw [hrows, List.length_map]
    exact List.length_filter_le _ views
  exact readPages_eq hrows hordered hsize hfits (by omega)

/-- A page that does not fit into memory ends the scan of a day before its first row. -/
theorem ViewTable.readDay_of_not_fits (h : ¬PageFits size) :
    t.readDay range size d = ⟨[], some .capacityOverflow⟩ := by
  rw [readDay, readPages, page, if_neg h]

/-- A scan that broke off stays as it is, whatever days come after. -/
theorem foldl_followedBy_of_failure {scan : Scan} (h : scan.failure.isSome)
    (read : Day → Scan) : days.foldl (fun scan d => followedBy scan (read d)) scan = scan := by
  induction days with
  | nil => rfl
  | cons d rest ih => rw [List.foldl_cons, followedBy, if_pos h, ih]

/-- Reading days adds the views of each to those that were read before. -/
theorem ViewTable.foldl_readDay_eq (hrows : t.rows = views.map ViewRow.ofView)
    (hordered : views.Pairwise View.Before) (hsize : 0 < size) (hfits : PageFits size)
    (days : List Day) (read : List View) :
    days.foldl (fun scan d => followedBy scan (t.readDay range size d)) ⟨read, none⟩ =
      ⟨read ++ days.flatMap fun d => onDay views d range.low range.high, none⟩ := by
  induction days generalizing read with
  | nil => simp
  | cons d rest ih =>
    rw [List.foldl_cons, readDay_eq hrows hordered hsize hfits, followedBy]
    simp only [Option.isSome_none, Bool.false_eq_true, if_false]
    rw [ih, List.flatMap_cons, List.append_assoc]

/-- Reading days reads their views between the bounds, as far as pages go. -/
theorem ViewTable.readDays_eq (hrows : t.rows = views.map ViewRow.ofView)
    (hordered : views.Pairwise View.Before) (hsize : 0 < size) (days : List Day) :
    t.readDays range size days =
      paged size days (days.flatMap fun d => onDay views d range.low range.high) := by
  by_cases hfits : PageFits size
  · rw [paged_of_fits hfits]
    exact foldl_readDay_eq hrows hordered hsize hfits days []
  · cases days with
    | nil => rfl
    | cons d rest =>
      have hfirst : followedBy ⟨[], none⟩ (t.readDay range size d) =
          ⟨[], some .capacityOverflow⟩ := by
        rw [readDay_of_not_fits hfits]
        rfl
      rw [readDays, List.foldl_cons, hfirst, foldl_followedBy_of_failure rfl]
      simp [paged, hfits]

/-- Views that are filed under the days of their timestamps, all of which are dates. -/
def OnTheirDays (views : List View) : Prop :=
  ∀ v ∈ views, v.day = Day.ofTimestamp v.cursor.ts ∧ Day.InCalendar v.cursor.ts

/-- Views on the days of their timestamps are filed under dates. -/
theorem OnTheirDays.isDate (h : OnTheirDays views) {v : View} (hv : v ∈ views) :
    v.day.IsDate := by
  rw [(h v hv).1]
  exact Day.isDate_ofTimestamp (h v hv).2

/-- Of two views on their days, the one of the earlier day comes first. -/
theorem OnTheirDays.lt_of_number_lt (h : OnTheirDays views) {v w : View} (hv : v ∈ views)
    (hw : w ∈ views) (hlt : v.day.number < w.day.number) : v.cursor < w.cursor := by
  obtain ⟨hday, hts⟩ := h v hv
  obtain ⟨hday', hts'⟩ := h w hw
  rw [← not_le]
  intro hle
  have hnumber := Day.number_ofTimestamp_le hts' hts (Cursor.ts_le_of_le hle)
  rw [← hday, ← hday'] at hnumber
  omega

/-- Views on their days are kept in the order of their cursors. -/
theorem OnTheirDays.rising (h : OnTheirDays views) (hordered : views.Pairwise View.Before) :
    views.Pairwise (·.cursor < ·.cursor) := by
  refine hordered.imp_of_mem fun {v w} hv hw hbefore => ?_
  rcases hbefore with hday | ⟨-, hcursor⟩
  · exact h.lt_of_number_lt hv hw (Day.number_lt_number (h.isDate hv) (h.isDate hw) hday)
  · exact hcursor

/-- Days in a row have their views in the order of a log. -/
theorem flatMap_onDay_eq (hdates : ∀ v ∈ views, v.day.IsDate)
    (hordered : views.Pairwise View.Before) (hdays : days.Pairwise (·.number < ·.number)) :
    (days.flatMap fun d => onDay views d range.low range.high) =
      (views.filter (·.cursor ∈ range)).filter (·.day ∈ days) := by
  refine eq_of_before ?_ ((hordered.filter _).filter _) fun v => ?_
  · refine List.pairwise_flatMap.mpr ⟨fun d _ => hordered.filter _, ?_⟩
    refine hdays.imp fun {d d'} hlt v hv w hw => .inl ?_
    obtain ⟨hmem, rfl, -⟩ := mem_onDay.mp hv
    obtain ⟨hmem', rfl, -⟩ := mem_onDay.mp hw
    exact Day.lt_of_number_lt (hdates v hmem) (hdates w hmem') hlt
  · simp only [List.mem_flatMap, mem_onDay, List.mem_filter, decide_eq_true_eq,
      CursorRange.mem_iff]
    constructor
    · rintro ⟨d, hd, hmem, rfl, hrange⟩
      exact ⟨⟨hmem, hrange⟩, hd⟩
    · rintro ⟨⟨hmem, hrange⟩, hd⟩
      exact ⟨v.day, hd, hmem, rfl, hrange⟩

/-! ## The first and the last day -/

namespace Cell

/-- Integers are added as such where the sum fits into a word. -/
theorem add_integer {m n : Int} (h : FitsWord (m + n)) :
    (integer m).add (integer n) = integer (m + n) := if_pos h

/-- Integers are multiplied as such where the product fits into a word. -/
theorem mul_integer {m n : Int} (h : FitsWord (m * n)) :
    (integer m).mul (integer n) = integer (m * n) := if_pos h

end Cell

/-- The row of a view that is filed under a date has the key of that date. -/
theorem ViewRow.dayKey_ofView {v : View} (hdate : v.day.IsDate) :
    (ofView v).dayKey = .integer v.day.key := by
  obtain ⟨hfirst, hlast, hmonth, hmonth', hday, hday'⟩ := hdate
  have hlength := (Day.monthStart_add_monthLength_le (Day.isLeap v.day.year) v.day.month hmonth'
    hmonth).1
  simp only [Day.firstYear, Day.lastYear] at hfirst hlast
  have hfits : ∀ n : Int, -3000000000 ≤ n → n ≤ 3000000000 → FitsWord n := by
    intro n hle hle'
    exact ⟨Int.le_trans (by decide) hle, Int.le_trans hle' (by decide)⟩
  rw [dayKey, ofView, Cell.mul_integer (hfits _ (by omega) (by omega)),
    Cell.mul_integer (hfits _ (by omega) (by omega)),
    Cell.add_integer (hfits _ (by omega) (by omega)),
    Cell.add_integer (hfits _ (by omega) (by omega)), Day.key]

/-- Where no number is preferred to the next one, the first is not preferred to the last. -/
private theorem compare_ne_trans {order : Ordering} (horder : order ≠ .eq) {a b c : Int}
    (hab : compare a b ≠ order) (hbc : compare b c ≠ order) : compare a c ≠ order := by
  cases order with
  | lt =>
    rw [ne_eq, Int.compare_eq_lt] at hab hbc ⊢
    omega
  | eq => exact absurd rfl horder
  | gt =>
    rw [ne_eq, Int.compare_eq_gt] at hab hbc ⊢
    omega

/-- Of whole numbers one is picked that none of them is preferred to. -/
theorem Cell.foldl_prefer (order : Ordering) (horder : order ≠ .eq) (ns : List Int) (a : Int) :
    ∃ n ∈ a :: ns, (∀ m ∈ a :: ns, compare m n ≠ order) ∧
      (ns.map integer).foldl (prefer order) (integer a) = integer n := by
  induction ns generalizing a with
  | nil => exact ⟨a, by simp, by simpa [Std.ReflCmp.compare_self] using horder.symm, rfl⟩
  | cons b rest ih =>
    by_cases hb : compare b a = order
    · obtain ⟨n, hn, hpicked, hfold⟩ := ih b
      have hab : compare a b ≠ order := by
        intro hab
        rw [Std.OrientedOrd.eq_swap (a := a), hb] at hab
        cases order <;> simp_all
      have han : compare a n ≠ order :=
        compare_ne_trans horder hab (hpicked b List.mem_cons_self)
      refine ⟨n, List.mem_cons_of_mem a hn, List.forall_mem_cons.mpr ⟨han, hpicked⟩, ?_⟩
      simpa [prefer, compare_integer, hb] using hfold
    · obtain ⟨n, hn, hpicked, hfold⟩ := ih a
      obtain ⟨han, hrest⟩ := List.forall_mem_cons.mp hpicked
      have hbn : compare b n ≠ order := compare_ne_trans horder hb han
      refine ⟨n, ?_, List.forall_mem_cons.mpr ⟨han, List.forall_mem_cons.mpr ⟨hbn, hrest⟩⟩, ?_⟩
      · rcases List.mem_cons.mp hn with rfl | hn
        · exact List.mem_cons_self
        · exact List.mem_cons_of_mem _ (List.mem_cons_of_mem _ hn)
      · simpa [prefer, compare_integer, hb] using hfold

/-- The limits of a table of dates are the least and the greatest of their keys. -/
theorem ViewTable.keyLimits_eq (hrows : t.rows = views.map ViewRow.ofView)
    (hdates : ∀ v ∈ views, v.day.IsDate) (hne : views ≠ []) :
    ∃ v ∈ views, ∃ w ∈ views, (∀ u ∈ views, v.day.key ≤ u.day.key ∧ u.day.key ≤ w.day.key) ∧
      t.keyLimits = .ok (some v.day.key, some w.day.key) := by
  have hkeys : t.rows.map (·.dayKey) = (views.map (·.day.key)).map Cell.integer := by
    rw [hrows, List.map_map, List.map_map]
    exact List.map_congr_left fun v hv => ViewRow.dayKey_ofView (hdates v hv)
  obtain ⟨first, rest, rfl⟩ := List.exists_cons_of_ne_nil hne
  obtain ⟨least, hmem, hleast, hfold⟩ :=
    Cell.foldl_prefer .lt (by decide) (rest.map (·.day.key)) first.day.key
  obtain ⟨greatest, hmem', hgreatest, hfold'⟩ :=
    Cell.foldl_prefer .gt (by decide) (rest.map (·.day.key)) first.day.key
  rw [← List.map_cons (f := fun v : View => v.day.key)] at hmem hleast hmem' hgreatest
  obtain ⟨v, hv, rfl⟩ := List.mem_map.mp hmem
  obtain ⟨w, hw, rfl⟩ := List.mem_map.mp hmem'
  refine ⟨v, hv, w, hw, fun u hu => ?_, ?_⟩
  · have hu' : u.day.key ∈ (first :: rest).map (·.day.key) := List.mem_map_of_mem hu
    have hle := hleast _ hu'
    have hge := hgreatest _ hu'
    rw [ne_eq, Int.compare_eq_lt] at hle
    rw [ne_eq, Int.compare_eq_gt] at hge
    omega
  · have hfirst (order : Ordering) (n : Int) :
        Cell.prefer order .null (.integer n) = .integer n := by
      simp [Cell.prefer]
    rw [keyLimits, hkeys, Cell.least, Cell.greatest, List.map_cons, List.map_cons, List.foldl_cons,
      List.foldl_cons, hfirst, hfirst, hfold, hfold']
    rfl

/-! ## The days of a range -/

/-- A side on which a range can be read from a table: its bound is on a date, or there is none and
no view was filed before year 0, from which on dates are found by their keys. -/
def Readable (views : List View) (b : Bound) : Prop :=
  (∀ c, b.cursor? = some c → Day.InCalendar c.ts) ∧
    (b = .unbounded → ∀ v ∈ views, 0 ≤ v.day.year)

/-- The day that a readable side reaches to is a date: that of its bound, or without a bound that of
the view whose key limits the table. -/
theorem ViewTable.limitDay?_spec (h : OnTheirDays views) {b : Bound} (hb : Readable views b)
    {v : View} (hv : v ∈ views) :
    ∃ d, limitDay? b (some v.day.key) = some d ∧ d.IsDate ∧
      (b = .unbounded ∧ d = v.day ∨
        ∃ c, b.cursor? = some c ∧ Day.InCalendar c.ts ∧ d = Day.ofTimestamp c.ts) := by
  cases hcursor : b.cursor? with
  | none =>
    have hunbounded : b = .unbounded := by cases b <;> simp_all [Bound.cursor?]
    refine ⟨v.day, ?_, h.isDate hv, .inl ⟨hunbounded, rfl⟩⟩
    simp [limitDay?, hcursor, Day.ofKey?_key (h.isDate hv) (hb.2 hunbounded v hv)]
  | some c =>
    have hts := hb.1 c hcursor
    exact ⟨Day.ofTimestamp c.ts, by simp [limitDay?, hcursor], Day.isDate_ofTimestamp hts,
      .inr ⟨c, rfl, hts, rfl⟩⟩

/-- A range touches days in a row, among them the day of every view of the range. -/
theorem ViewTable.daysOf_spec (hrows : t.rows = views.map ViewRow.ofView) (h : OnTheirDays views)
    (hlow : Readable views range.low) (hhigh : Readable views range.high) :
    ∃ days, t.daysOf range = .ok days ∧ days.Pairwise (·.number < ·.number) ∧
      ∀ v ∈ views, v.cursor ∈ range → v.day ∈ days := by
  by_cases hne : views = []
  · have hlimits : t.keyLimits = .ok (none, none) := by
      rw [keyLimits, hrows, hne]
      rfl
    rw [daysOf, hlimits]
    refine ⟨_, rfl, ?_, by simp [hne]⟩
    dsimp only
    split
    · exact Day.pairwise_between
    · exact List.Pairwise.nil
  · obtain ⟨v, hv, w, hw, hkeys, hlimits⟩ := keyLimits_eq hrows (fun _ hu => h.isDate hu) hne
    obtain ⟨a, ha, hdate, hfirst⟩ := limitDay?_spec h hlow hv
    obtain ⟨b, hb, hdate', hlast⟩ := limitDay?_spec h hhigh hw
    refine ⟨Day.between a b, by simp [daysOf, hlimits, Except.map, ha, hb], Day.pairwise_between,
      fun u hu hrange => ?_⟩
    obtain ⟨hday, hts⟩ := h u hu
    rw [hday, Day.ofTimestamp_mem_between_iff hts hdate hdate', ← hday]
    constructor
    · rcases hfirst with ⟨-, rfl⟩ | ⟨c, hc, hcts, rfl⟩
      · exact Day.number_le_number_of_key_le hdate (h.isDate hu) (hkeys u hu).1
      · rw [hday]
        exact Day.number_ofTimestamp_le hcts hts (Cursor.ts_le_of_le (hrange.1.le hc))
    · rcases hlast with ⟨-, rfl⟩ | ⟨c, hc, hcts, rfl⟩
      · exact Day.number_le_number_of_key_le (h.isDate hu) hdate' (hkeys u hu).2
      · rw [hday]
        exact Day.number_ofTimestamp_le hts hcts (Cursor.ts_le_of_le (hrange.2.le hc))

/-! ## Queries -/

/-- A reader with pages of no rows reads pages of one row, and these fit into memory. -/
theorem pageFits_max_one : PageFits (max size 1) ↔ PageFits size := by
  change PageFits (if size ≤ 1 then 1 else size) ↔ _
  split
  · rename_i hle
    have hone := UInt64.le_iff_toNat_le.mp hle
    have hsize : PageFits size := Nat.le_trans (Nat.mul_le_mul_right viewBytes hone) (by decide)
    exact iff_of_true (by decide) hsize
  · rfl

/-- A reader has pages of the size that it is given, but of one row at least. -/
theorem Database.pageSize_reader (db : Database) : (db.reader size).pageSize = max size 1 := rfl

/-- The views that a scan hands out do not depend on whether its pages have one row or none. -/
theorem paged_max_one : paged (max size 1) days views = paged size days views := by
  simp only [paged, pageFits_max_one]

/-- A query has those views of its range that are filed under the days that the range touches. -/
theorem ViewReader.query_eq_of_daysOf {reader : ViewReader} (htable : reader.table = some t)
    (hrows : t.rows = views.map ViewRow.ofView) (hordered : views.Pairwise View.Before)
    (hdates : ∀ v ∈ views, v.day.IsDate) (hdays : t.daysOf range = .ok days)
    (hrising : days.Pairwise (·.number < ·.number)) :
    reader.query range = .ok (paged reader.pageSize (range.daysRead days)
      ((views.filter (·.cursor ∈ range)).filter (·.day ∈ days))) := by
  unfold query CursorRange.daysRead
  split
  · rename_i hempty
    simp [paged, CursorRange.not_mem_of_isEmpty hempty]
  · simp only [htable, hdays, ViewTable.readDays_eq hrows hordered reader.pageSize_pos,
      flatMap_onDay_eq hdates hordered hrising]

/-- Over a table of views on their days every query has all views of its range, as far as pages
go. -/
theorem ViewReader.query_eq {reader : ViewReader} (htable : reader.table = some t)
    (hrows : t.rows = views.map ViewRow.ofView) (hordered : views.Pairwise View.Before)
    (h : OnTheirDays views) (hlow : Readable views range.low) (hhigh : Readable views range.high) :
    ∃ days, t.daysOf range = .ok days ∧
      (∀ v ∈ views, v.cursor ∈ range → v.day ∈ range.daysRead days) ∧
      reader.query range =
        .ok (paged reader.pageSize (range.daysRead days) (views.filter (·.cursor ∈ range))) := by
  obtain ⟨days, hdays, hrising, hmem⟩ := ViewTable.daysOf_spec hrows h hlow hhigh
  have hquery := query_eq_of_daysOf htable hrows hordered (fun v hv => h.isDate hv) hdays hrising
  have hall : (views.filter (·.cursor ∈ range)).filter (·.day ∈ days) =
      views.filter (·.cursor ∈ range) := by
    refine List.filter_eq_self.mpr fun v hv => ?_
    obtain ⟨hv, hrange⟩ := List.mem_filter.mp hv
    simpa using hmem v hv (by simpa using hrange)
  refine ⟨days, hdays, fun v hv hrange => ?_, by rw [hquery, hall]⟩
  rw [CursorRange.daysRead, if_neg fun hempty => range.not_mem_of_isEmpty hempty v.cursor hrange]
  exact hmem v hv hrange

/-- A reader of views on their days, with pages that fit into memory, does what is asked of a source
as far as the calendar goes: between bounds on dates it hands out the views that it holds, all of
the range and in their order, and stays as it is. -/
theorem ViewReader.query_eq_held {reader : ViewReader} (htable : reader.table = some t)
    (hrows : t.rows = views.map ViewRow.ofView) (hordered : views.Pairwise View.Before)
    (h : OnTheirDays views) (hfits : PageFits reader.pageSize) (hlow : Readable views range.low)
    (hhigh : Readable views range.high) :
    ViewSource.query reader range = (.ok ⟨views.filter (·.cursor ∈ range), none⟩, reader) := by
  obtain ⟨days, -, -, hquery⟩ := query_eq htable hrows hordered h hlow hhigh
  rw [paged_of_fits hfits] at hquery
  exact congrArg (·, reader) hquery

end Store

namespace Memory.Log

/-- A log that is filled by filing views has no failure pending. -/
theorem failAfter_filing (views : List View) : (filing views).failAfter = none := by
  have hpush : ∀ log : Log, (log.pushAll views).failAfter = log.failAfter := by
    induction views with
    | nil => exact fun _ => rfl
    | cons v rest ih => exact fun log => ih (log.push v)
  exact hpush { ordered := List.Pairwise.nil }

/-- A log of filed views hands out all of a range. -/
theorem query_filing (views : List View) (range : CursorRange) :
    ((filing views).query range).1 = ⟨(filing views).inRange range, none⟩ := by
  simp only [query, failAfter_filing]

end Memory.Log

namespace Store.Archive

/-- Whatever was written to the table, if all of it was filed under the days of its timestamps, and
all these are dates, then a query of any range that is readable on both sides succeeds with pages of
any size that fits into memory. It has every view of the range that was written, once and in the
order of cursors, and is what a log in memory of the same views answers. With larger pages it has no
view, and overflows unless it reads no day. -/
theorem query_eq_filing_query (writes : List Write) (size : UInt64) (range : CursorRange)
    (hdays : OnTheirDays (writeAll {} writes).written)
    (hlow : Readable (writeAll {} writes).written range.low)
    (hhigh : Readable (writeAll {} writes).written range.high) :
    (PageFits size → ∃ scanned : List View,
      ((writeAll {} writes).database.reader size).query range = .ok ⟨scanned, none⟩ ∧
      (∀ v, v ∈ scanned ↔ v ∈ (writeAll {} writes).written ∧ v.cursor ∈ range) ∧
      scanned.Pairwise (·.cursor < ·.cursor) ∧
      ((Memory.Log.filing (writeAll {} writes).written).query range).1 = ⟨scanned, none⟩) ∧
    (¬PageFits size → ∃ t days, (writeAll {} writes).database.views = some t ∧
      t.daysOf range = .ok days ∧
      ((writeAll {} writes).database.reader size).query range =
        .ok ⟨[], if range.daysRead days = [] then none else some .capacityOverflow⟩) := by
  generalize hwritten : (writeAll {} writes).written = written at *
  have hstores := stores_writeAll writes
  rw [hwritten] at hstores
  obtain ⟨t, ht, hrows⟩ := Option.map_eq_some_iff.mp hstores.rows_eq
  have hmem : ∀ v, v ∈ (Memory.Log.filing written).views ↔ v ∈ written :=
    fun v => hstores.perm.mem_iff
  have hordered := (Memory.Log.filing written).ordered
  have hfiled : OnTheirDays (Memory.Log.filing written).views :=
    fun v hv => hdays v ((hmem v).mp hv)
  have hreadable {b : Bound} (hb : Readable written b) :
      Readable (Memory.Log.filing written).views b :=
    ⟨hb.1, fun hunbounded v hv => hb.2 hunbounded v ((hmem v).mp hv)⟩
  have htable : ((writeAll {} writes).database.reader size).table = some t := ht
  obtain ⟨days, htouched, hread, hquery⟩ :=
    ViewReader.query_eq htable hrows hordered hfiled (hreadable hlow) (hreadable hhigh)
  rw [Database.pageSize_reader, paged_max_one] at hquery
  refine ⟨fun hfits => ?_, fun hlarge => ⟨t, days, ht, htouched, ?_⟩⟩
  · rw [paged_of_fits hfits] at hquery
    refine ⟨_, hquery, fun v => ?_, (hfiled.rising hordered).filter _, ?_⟩
    · rw [List.mem_filter, hmem, decide_eq_true_eq]
    · exact Memory.Log.query_filing written range
  · -- Where no day is read, no view lies in the range, so none is missing from the answer.
    rw [hquery, paged_of_not_fits hlarge fun hnone => ?_]
    refine List.filter_eq_nil_iff.mpr fun v hv hrange => ?_
    simpa [hnone] using hread v hv (by simpa using hrange)

/-- Views around a midnight and after a day without any. The last batch is refused as a whole for a
sequence number that only boundaries have. -/
def aroundMidnight : List Write :=
  [.append [.filed ⟨86399999, 2⟩ "a", .filed ⟨86399999, 1⟩ "b"], .record 86400000 "c",
    .record 86400000 "d", .append [.filed ⟨259200000, 1⟩ "e"],
    .append [.filed ⟨86399999, 3⟩ "f", .filed ⟨86399999, 0⟩ "g"]]

/-- The scan resumes within a millisecond, fills its last page of a day and goes on past the gap. -/
theorem query_eq_filing_query_aroundMidnight :
    let range : CursorRange := .after ⟨86399999, 1⟩
    OnTheirDays (writeAll {} aroundMidnight).written ∧ PageFits 1 ∧
      ((writeAll {} aroundMidnight).database.reader 1).query range =
        .ok ⟨[.filed ⟨86399999, 2⟩ "a", .filed ⟨86400000, 1⟩ "c", .filed ⟨86400000, 2⟩ "d",
          .filed ⟨259200000, 1⟩ "e"], none⟩ ∧
      ∃ scanned : List View,
        ((writeAll {} aroundMidnight).database.reader 1).query range = .ok ⟨scanned, none⟩ ∧
        (∀ v, v ∈ scanned ↔ v ∈ (writeAll {} aroundMidnight).written ∧ v.cursor ∈ range) ∧
        scanned.Pairwise (·.cursor < ·.cursor) ∧
        ((Memory.Log.filing (writeAll {} aroundMidnight).written).query range).1 =
          ⟨scanned, none⟩ := by
  intro range
  have hdays : OnTheirDays (writeAll {} aroundMidnight).written := by
    unfold OnTheirDays
    decide +kernel
  have hlow : Readable (writeAll {} aroundMidnight).written range.low := by
    refine ⟨fun c hc => ?_, fun hunbounded => nomatch hunbounded⟩
    cases hc
    decide
  have hhigh : Readable (writeAll {} aroundMidnight).written range.high := by
    refine ⟨fun c hc => (nomatch hc), fun _ => ?_⟩
    decide +kernel
  have hfits : PageFits 1 := by decide
  exact ⟨hdays, hfits, by decide +kernel,
    (query_eq_filing_query aroundMidnight 1 range hdays hlow hhigh).1 hfits⟩

/-- With pages of the greatest size the same scan overflows and has no view, where a log in memory
has them all. -/
theorem query_overflows_aroundMidnight :
    let size : UInt64 := 18446744073709551615
    let range : CursorRange := .after ⟨86399999, 1⟩
    OnTheirDays (writeAll {} aroundMidnight).written ∧
      Readable (writeAll {} aroundMidnight).written range.low ∧
      Readable (writeAll {} aroundMidnight).written range.high ∧
      ((writeAll {} aroundMidnight).database.reader size).query range =
        .ok ⟨[], some .capacityOverflow⟩ ∧
      ((Memory.Log.filing (writeAll {} aroundMidnight).written).query range).1 =
        ⟨[.filed ⟨86399999, 2⟩ "a", .filed ⟨86400000, 1⟩ "c", .filed ⟨86400000, 2⟩ "d",
          .filed ⟨259200000, 1⟩ "e"], none⟩ := by
  intro size range
  refine ⟨?_, ⟨fun c hc => ?_, fun hunbounded => nomatch hunbounded⟩,
    ⟨fun c hc => (nomatch hc), fun _ => ?_⟩, ?_, ?_⟩
  · unfold OnTheirDays
    decide +kernel
  · cases hc
    decide
  · decide +kernel
  · decide +kernel
  · decide +kernel

end Store.Archive

end Pacing
