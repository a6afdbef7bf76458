import Pacing.Source

/-!
# A log of views in memory

The log keeps its views by day, and by cursor within a day. A view filed under the day and cursor
of another takes its place. The log can be told to break off during its next query, and it counts
the days that its queries read.
-/

namespace Pacing.Memory

/-- The views of a log with its means of failure. -/
structure Log where
  /-- The views in the order of `View.Before`. -/
  views : List View := []
  /-- No view comes before an earlier one, and no two share a day and a cursor. -/
  ordered : views.Pairwise View.Before := by simp
  /-- After how many views the next query breaks off, if it is to. -/
  failAfter : Option Nat := none
  /-- How many days queries have read views from. -/
  reads : Nat := 0

namespace Log

/-- Puts a view in its place, replacing one of the same day and cursor. -/
def place (v : View) : List View → List View
  | [] => [v]
  | w :: rest =>
    if v.Before w then v :: w :: rest
    else if w.Before v then w :: place v rest
    else v :: rest

/-- The order of a log is transitive. -/
theorem before_trans {a b c : View} (hab : a.Before b) (hbc : b.Before c) : a.Before c := by
  simp only [View.Before, Day.lt_iff, Cursor.lt_iff_position] at *
  rcases hab with hab | ⟨hab, hab'⟩
  · rcases hbc with hbc | ⟨hbc, hbc'⟩
    · left
      omega
    · rw [← hbc]
      exact .inl hab
  · rcases hbc with hbc | ⟨hbc, hbc'⟩
    · rw [hab]
      exact .inl hbc
    · exact .inr ⟨hab.trans hbc, by omega⟩

/-- Two views of which neither comes first share their day and their cursor. -/
theorem eq_of_not_before {a b : View} (h : ¬a.Before b) (h' : ¬b.Before a) :
    a.day = b.day ∧ a.cursor = b.cursor := by
  simp only [View.Before, Day.lt_iff, Cursor.lt_iff_position, not_or, not_and] at h h'
  have hday : a.day = b.day := by
    rcases ha : a.day with ⟨y, m, d⟩
    rcases hb : b.day with ⟨y', m', d'⟩
    simp only [ha, hb, Day.mk.injEq] at h h' ⊢
    omega
  refine ⟨hday, Cursor.position_inj.mp ?_⟩
  have := h.2 hday
  have := h'.2 hday.symm
  omega

/-- Placing a view adds nothing but that view. -/
theorem mem_place {u v : View} {views : List View} (h : u ∈ place v views) : u = v ∨ u ∈ views := by
  induction views with
  | nil => simpa [place] using h
  | cons w rest ih =>
    simp only [place] at h
    split at h
    · simpa using h
    · split at h
      · rcases List.mem_cons.mp h with rfl | h
        · simp
        · rcases ih h with rfl | h <;> simp_all
      · rcases List.mem_cons.mp h with rfl | h <;> simp_all

/-- Placing a view keeps the views in the order of a log. -/
theorem pairwise_place (v : View) {views : List View} (h : views.Pairwise View.Before) :
    (place v views).Pairwise View.Before := by
  induction views with
  | nil => simp [place]
  | cons w rest ih =>
    obtain ⟨hw, hrest⟩ := List.pairwise_cons.mp h
    simp only [place]
    split
    · rename_i hv
      refine List.pairwise_cons.mpr ⟨fun u hu => ?_, h⟩
      rcases List.mem_cons.mp hu with rfl | hu
      · exact hv
      · exact before_trans hv (hw u hu)
    · split
      · rename_i hv
        refine List.pairwise_cons.mpr ⟨fun u hu => ?_, ih hrest⟩
        rcases mem_place hu with rfl | hu
        · exact hv
        · exact hw u hu
      · rename_i hv hv'
        obtain ⟨hday, hcursor⟩ := eq_of_not_before hv hv'
        refine List.pairwise_cons.mpr ⟨fun u hu => ?_, hrest⟩
        have := hw u hu
        simpa only [View.Before, hday, hcursor] using this

/-- Files a view. -/
def push (log : Log) (v : View) : Log :=
  { log with views := place v log.views, ordered := pairwise_place v log.ordered }

/-- Files several views, one after the other. -/
def pushAll (log : Log) (views : List View) : Log := views.foldl push log

/-- Makes the next query break off after some views. -/
def failNextAfter (log : Log) (n : Nat) : Log := { log with failAfter := some n }

/-- The views of the log in a range. -/
def inRange (log : Log) (range : CursorRange) : List View :=
  log.views.filter (·.cursor ∈ range)

/-- The days that views are filed under, each once for views in a row. -/
def days : List View → List Day
  | [] => []
  | [v] => [v.day]
  | v :: w :: rest => if v.day = w.day then days (w :: rest) else v.day :: days (w :: rest)

/-- Asks for the views of a range. A failure that was ordered is used up. -/
def query (log : Log) (range : CursorRange) : Scan × Log :=
  let views := log.inRange range
  let scan : Scan :=
    match log.failAfter with
    | some n => ⟨views.take n, some .brokenOff⟩
    | none => ⟨views, none⟩
  (scan, { log with reads := log.reads + (days views).length, failAfter := none })

instance : ViewSource Log where
  query log range := let (scan, log) := log.query range; (.ok scan, log)

end Log

end Pacing.Memory
