import Pacing.Proofs.CountSplitting
import Pacing.Proofs.CursorOrder
import Pacing.Proofs.IntakeSemantics
import Pacing.Proofs.TakeBackSemantics

/-!
# Segments that agree with what was read

The segments of a boost are sound for its readings when they lie in order, every counted view past
the low watermark lies in one of them, every reading that a segment spans was counted under its
profile, and the views of a segment are those it spans past the low watermark. This file proves
that whatever happens to segments keeps them sound: a run follows the newest segment or continues
it, views go uncounted, and a take-back cuts segments down.
-/

namespace Pacing

namespace Segment

variable {segments : List Segment} {s t : Segment} {c : Cursor}

/-- Of two segments one ends before the other begins. -/
theorem eq_or_apart (hapart : segments.Pairwise (·.last < ·.first)) (hs : s ∈ segments)
    (ht : t ∈ segments) : s = t ∨ s.last < t.first ∨ t.last < s.first := by
  refine List.Pairwise.forall_of_forall_of_flip
    (R := fun s t : Segment => s = t ∨ s.last < t.first ∨ t.last < s.first)
    (fun _ _ => .inl rfl) ?_ ?_ hs ht
  · exact hapart.imp fun hst => .inr (.inl hst)
  · exact hapart.imp fun hst => .inr (.inr hst)

/-- A cursor lies in one segment at most. -/
theorem eq_of_spans (hapart : segments.Pairwise (·.last < ·.first)) (hs : s ∈ segments)
    (ht : t ∈ segments) (hsc : s.Spans c) (htc : t.Spans c) : s = t := by
  rcases eq_or_apart hapart hs ht with heq | hst | hts
  · exact heq
  · have hlt := lt_of_le_of_lt hsc.2 hst
    exact absurd (lt_of_lt_of_le hlt htc.1) (lt_irrefl c)
  · have hlt := lt_of_le_of_lt htc.2 hts
    exact absurd (lt_of_lt_of_le hlt hsc.1) (lt_irrefl c)

end Segment

/-- Segments of one boost that agree with what was read of it, between two watermarks. -/
structure SegmentsSound (segments : List Segment) (readings : List Reading) (low high : Cursor) :
    Prop where
  ordered : segments.Pairwise (·.last < ·.first)
  forward : ∀ s ∈ segments, s.first ≤ s.last
  below : ∀ s ∈ segments, s.last ≤ high
  held : ∀ s ∈ segments, 0 < s.views
  views_eq : ∀ s ∈ segments, s.views = readings.countP fun r => s.Spans r.cursor ∧ low < r.cursor
  profile_eq : ∀ s ∈ segments, ∀ r ∈ readings, s.Spans r.cursor → r.profile = some s.profile
  covered : ∀ r ∈ readings, r.profile.isSome → low < r.cursor → ∃ s ∈ segments, s.Spans r.cursor
  begins : ∀ s ∈ segments, ∃ r ∈ readings, r.cursor = s.first

namespace SegmentsSound

variable {segments front : List Segment} {readings fresh : List Reading} {low high high' : Cursor}
  {newest run : Segment} {p : Profile}

/-- What holds of some segments and of one more holds of all of them together. -/
private theorem forall_mem_concat {Q : Segment → Prop} {s : Segment}
    (hsegments : ∀ t ∈ segments, Q t) (hs : Q s) : ∀ t ∈ segments ++ [s], Q t :=
  List.forall_mem_append.mpr ⟨hsegments, List.forall_mem_singleton.mpr hs⟩

/-- A boost of which nothing counted is left past the low watermark needs no segments. -/
theorem nil_iff : SegmentsSound [] readings low high ↔
    ∀ r ∈ readings, r.profile.isSome → r.cursor ≤ low := by
  constructor
  · intro h r hr hcounted
    by_contra hlow
    obtain ⟨s, hs, _⟩ := h.covered r hr hcounted (not_le.mp hlow)
    cases hs
  · intro h
    refine ⟨List.Pairwise.nil, ?_, ?_, ?_, ?_, ?_, fun r hr hcounted hlow => ?_, ?_⟩
    · simp
    · simp
    · simp
    · simp
    · simp
    · exact absurd hlow (not_lt.mpr (h r hr hcounted))
    · simp

/-- A segment that ends below the high watermark spans nothing read past it. -/
theorem not_spans_fresh (h : SegmentsSound segments readings low high) {s : Segment}
    (hs : s ∈ segments) {r : Reading} (hr : high < r.cursor) : ¬s.Spans r.cursor := fun hspan =>
  lt_irrefl _ (lt_of_lt_of_le hr (le_trans hspan.2 (h.below s hs)))

/-- No segment ends behind the newest one. -/
theorem last_le_newest (h : SegmentsSound (front ++ [newest]) readings low high) {s : Segment}
    (hs : s ∈ front ++ [newest]) : s.last ≤ newest.last := by
  rcases List.mem_append.mp hs with hs | hs
  · have hbefore : s.last < newest.first :=
      (List.pairwise_append.mp h.ordered).2.2 s hs newest (by simp)
    exact le_trans (le_of_lt hbefore) (h.forward newest (by simp))
  · rw [List.mem_singleton.mp hs]

/-- What is read past the high watermark does not count for the segments that are there. -/
theorem countP_fresh_eq_zero (h : SegmentsSound segments readings low high) {s : Segment}
    (hs : s ∈ segments) (hpast : ∀ r ∈ fresh, high < r.cursor) :
    fresh.countP (fun r => s.Spans r.cursor ∧ low < r.cursor) = 0 := by
  rw [List.countP_eq_zero]
  intro r hr
  simp [h.not_spans_fresh hs (hpast r hr)]

/-- A segment holds as much as before when views are read past the high watermark. -/
theorem views_eq_append (h : SegmentsSound segments readings low high) {s : Segment}
    (hs : s ∈ segments) (hpast : ∀ r ∈ fresh, high < r.cursor) :
    s.views = (readings ++ fresh).countP fun r => s.Spans r.cursor ∧ low < r.cursor := by
  rw [List.countP_append, h.countP_fresh_eq_zero hs hpast, Nat.add_zero]
  exact h.views_eq s hs

/-- A segment spans nothing but its own profile when views are read past the high watermark. -/
theorem profile_eq_append (h : SegmentsSound segments readings low high) {s : Segment}
    (hs : s ∈ segments) (hpast : ∀ r ∈ fresh, high < r.cursor) {r : Reading}
    (hr : r ∈ readings ++ fresh) (hspan : s.Spans r.cursor) : r.profile = some s.profile := by
  rcases List.mem_append.mp hr with hr | hr
  · exact h.profile_eq s hs r hr hspan
  · exact absurd hspan (h.not_spans_fresh hs (hpast r hr))

/-- A segment still begins at a reading when more is read. -/
theorem begins_append (h : SegmentsSound segments readings low high) {s : Segment}
    (hs : s ∈ segments) (fresh : List Reading) : ∃ r ∈ readings ++ fresh, r.cursor = s.first := by
  obtain ⟨r, hr, hfirst⟩ := h.begins s hs
  exact ⟨r, List.mem_append_left _ hr, hfirst⟩

/-- Views that are read and not counted leave the segments as they are. -/
theorem idle (h : SegmentsSound segments readings low high)
    (hpast : ∀ r ∈ fresh, high < r.cursor) (hmissed : ∀ r ∈ fresh, r.profile = none)
    (hhigh : high ≤ high') : SegmentsSound segments (readings ++ fresh) low high' where
  ordered := h.ordered
  forward := h.forward
  below s hs := le_trans (h.below s hs) hhigh
  held := h.held
  views_eq s hs := h.views_eq_append hs hpast
  profile_eq s hs _ hr hspan := h.profile_eq_append hs hpast hr hspan
  covered r hr hcounted hlow := by
    rcases List.mem_append.mp hr with hr | hr
    · exact h.covered r hr hcounted hlow
    · simp [hmissed r hr] at hcounted
  begins s hs := h.begins_append hs fresh

/-- A run of views that were read past the high watermark and counted under one profile. -/
structure RunOf (run : Segment) (p : Profile) (fresh : List Reading) (high high' : Cursor) :
    Prop where
  profile_eq : run.profile = p
  views_eq : run.views = fresh.length
  ne_nil : fresh ≠ []
  past : high < run.first
  forward : run.first ≤ run.last
  below : run.last ≤ high'
  spans : ∀ r ∈ fresh, run.Spans r.cursor
  counted : ∀ r ∈ fresh, r.profile = some p
  begins : ∃ r ∈ fresh, r.cursor = run.first

/-- The run staged for views in rising order is a run of them. -/
theorem runOf_of_ofRun? (hrun : Segment.ofRun? (some p) (fresh.map Reading.cursor) = some run)
    (hrising : fresh.Pairwise (·.cursor < ·.cursor)) (hpast : ∀ r ∈ fresh, high < r.cursor)
    (hbelow : ∀ r ∈ fresh, r.cursor ≤ high') (hcounted : ∀ r ∈ fresh, r.profile = some p) :
    RunOf run p fresh high high' := by
  obtain ⟨first, last, hfirst, hlast, rfl⟩ := Segment.ofRun?_eq_some_iff.mp hrun
  have hrising' : (fresh.map Reading.cursor).Pairwise (· < ·) := List.pairwise_map.mpr hrising
  have hmem {c : Cursor} (hc : c ∈ fresh.map Reading.cursor) : high < c ∧ c ≤ high' := by
    obtain ⟨r, hr, rfl⟩ := List.mem_map.mp hc
    exact ⟨hpast r hr, hbelow r hr⟩
  have hfirst_mem := List.mem_of_mem_head? hfirst
  have hlast_mem := List.mem_of_getLast? hlast
  exact {
    profile_eq := rfl
    views_eq := by simp
    ne_nil := by rintro rfl; simp at hfirst
    past := (hmem hfirst_mem).1
    forward := Cursor.head_le_of_rising hrising' hfirst hlast_mem
    below := (hmem hlast_mem).2
    spans := fun r hr => ⟨Cursor.head_le_of_rising hrising' hfirst (List.mem_map_of_mem hr),
      Cursor.le_last_of_rising hrising' hlast (List.mem_map_of_mem hr)⟩
    counted := hcounted
    begins := List.mem_map.mp hfirst_mem }

/-- Every view of a run lies past the low watermark. -/
theorem RunOf.countP_eq (h : RunOf run p fresh high high') (hlow : low ≤ high) :
    fresh.countP (fun r => run.Spans r.cursor ∧ low < r.cursor) = run.views := by
  rw [h.views_eq, List.countP_eq_length]
  intro r hr
  have hspan := h.spans r hr
  simp only [decide_eq_true_eq]
  exact ⟨hspan, lt_of_le_of_lt hlow (lt_of_lt_of_le h.past hspan.1)⟩

/-- A run spans nothing that was read before it. -/
theorem RunOf.not_spans_old (h : RunOf run p fresh high high') {r : Reading}
    (hr : r.cursor ≤ high) : ¬run.Spans r.cursor := fun hspan =>
  lt_irrefl _ (lt_of_le_of_lt hr (lt_of_lt_of_le h.past hspan.1))

/-- A run lies past the watermark that was the high one before it. -/
theorem RunOf.fresh_past (h : RunOf run p fresh high high') : ∀ r ∈ fresh, high < r.cursor :=
  fun r hr => lt_of_lt_of_le h.past (h.spans r hr).1

/-- A run does not lower the high watermark. -/
theorem RunOf.high_le (h : RunOf run p fresh high high') : high ≤ high' :=
  le_of_lt (lt_of_lt_of_le h.past (le_trans h.forward h.below))

/-- A run that follows the segments that are there makes a new one. -/
theorem push (h : SegmentsSound segments readings low high) (hrun : RunOf run p fresh high high')
    (hold : ∀ r ∈ readings, r.cursor ≤ high) (hlow : low ≤ high) :
    SegmentsSound (segments ++ [run]) (readings ++ fresh) low high' where
  ordered := by
    refine List.pairwise_append.mpr ⟨h.ordered, List.pairwise_singleton _ _, fun s hs t ht => ?_⟩
    rw [List.mem_singleton.mp ht]
    exact lt_of_le_of_lt (h.below s hs) hrun.past
  forward := forall_mem_concat h.forward hrun.forward
  below := forall_mem_concat (fun s hs => le_trans (h.below s hs) hrun.high_le) hrun.below
  held := by
    refine forall_mem_concat h.held ?_
    rw [hrun.views_eq]
    exact List.length_pos_of_ne_nil hrun.ne_nil
  views_eq := by
    refine forall_mem_concat (fun s hs => h.views_eq_append hs hrun.fresh_past) ?_
    have hzero : readings.countP (fun r => run.Spans r.cursor ∧ low < r.cursor) = 0 := by
      rw [List.countP_eq_zero]
      intro r hr
      simp [hrun.not_spans_old (hold r hr)]
    rw [List.countP_append, hzero, hrun.countP_eq hlow, Nat.zero_add]
  profile_eq := by
    refine forall_mem_concat (fun s hs r hr => h.profile_eq_append hs hrun.fresh_past hr) ?_
    intro r hr hspan
    rcases List.mem_append.mp hr with hr | hr
    · exact absurd hspan (hrun.not_spans_old (hold r hr))
    · rw [hrun.counted r hr, hrun.profile_eq]
  covered r hr hcounted hrlow := by
    rcases List.mem_append.mp hr with hr | hr
    · obtain ⟨s, hs, hspan⟩ := h.covered r hr hcounted hrlow
      exact ⟨s, List.mem_append_left _ hs, hspan⟩
    · exact ⟨run, by simp, hrun.spans r hr⟩
  begins := by
    refine forall_mem_concat (fun s hs => h.begins_append hs fresh) ?_
    obtain ⟨r, hr, hfirst⟩ := hrun.begins
    exact ⟨r, List.mem_append_right _ hr, hfirst⟩

/-- A run begins past the newest segment. -/
theorem newest_lt_run (h : SegmentsSound (front ++ [newest]) readings low high)
    (hrun : RunOf run p fresh high high') : newest.last < run.first :=
  lt_of_le_of_lt (h.below newest (by simp)) hrun.past

/-- A segment does not end earlier when a run continues it. -/
theorem newest_le_run (h : SegmentsSound (front ++ [newest]) readings low high)
    (hrun : RunOf run p fresh high high') : newest.last ≤ run.last :=
  le_of_lt (lt_of_lt_of_le (h.newest_lt_run hrun) hrun.forward)

/-- Of what was read before a run, the longer segment spans what the newest one spanned. -/
theorem join_spans_old (h : SegmentsSound (front ++ [newest]) readings low high)
    (hrun : RunOf run p fresh high high') (hold : ∀ r ∈ readings, r.cursor ≤ newest.last)
    {r : Reading} (hr : r ∈ readings) :
    (newest.join run).Spans r.cursor ↔ newest.Spans r.cursor := by
  have hlonger : newest.last ≤ run.last := h.newest_le_run hrun
  constructor
  · rintro ⟨hfirst, _⟩
    exact ⟨hfirst, hold r hr⟩
  · rintro ⟨hfirst, hlast⟩
    exact ⟨hfirst, le_trans hlast hlonger⟩

/-- The longer segment spans the whole run. -/
theorem join_spans_fresh (h : SegmentsSound (front ++ [newest]) readings low high)
    (hrun : RunOf run p fresh high high') {r : Reading} (hr : r ∈ fresh) :
    (newest.join run).Spans r.cursor := by
  have hspan := hrun.spans r hr
  have hend : newest.last ≤ r.cursor :=
    le_of_lt (lt_of_lt_of_le (h.newest_lt_run hrun) hspan.1)
  exact ⟨le_trans (h.forward newest (by simp)) hend, hspan.2⟩

/-- The longer segment holds the views of both. -/
theorem join_views_eq (h : SegmentsSound (front ++ [newest]) readings low high)
    (hrun : RunOf run p fresh high high') (hold : ∀ r ∈ readings, r.cursor ≤ newest.last)
    (hlow : low ≤ high) : (newest.join run).views =
      (readings ++ fresh).countP fun r => (newest.join run).Spans r.cursor ∧ low < r.cursor := by
  have hold_eq : readings.countP (fun r => (newest.join run).Spans r.cursor ∧ low < r.cursor) =
      newest.views := by
    rw [h.views_eq newest (by simp)]
    refine List.countP_congr fun r hr => ?_
    simp [h.join_spans_old hrun hold hr]
  have hfresh_eq : fresh.countP (fun r => (newest.join run).Spans r.cursor ∧ low < r.cursor) =
      run.views := by
    rw [← hrun.countP_eq hlow]
    refine List.countP_congr fun r hr => ?_
    simp [h.join_spans_fresh hrun hr, hrun.spans r hr]
  rw [List.countP_append, hold_eq, hfresh_eq]
  rfl

/-- A run that continues the newest segment makes it longer. -/
theorem join (h : SegmentsSound (front ++ [newest]) readings low high)
    (hrun : RunOf run p fresh high high') (hold : ∀ r ∈ readings, r.cursor ≤ newest.last)
    (hprofile : newest.profile = p) (hlow : low ≤ high) :
    SegmentsSound (front ++ [newest.join run]) (readings ++ fresh) low high' := by
  have hnewest : newest ∈ front ++ [newest] := List.mem_concat_self
  have hlonger : newest.last ≤ run.last := h.newest_le_run hrun
  have hfront {s : Segment} (hs : s ∈ front) : s ∈ front ++ [newest] := List.mem_append_left _ hs
  exact {
    ordered := by
      obtain ⟨hordered, _, hlast⟩ := List.pairwise_append.mp h.ordered
      refine List.pairwise_append.mpr ⟨hordered, List.pairwise_singleton _ _, fun s hs t ht => ?_⟩
      rw [List.mem_singleton.mp ht]
      exact hlast s hs newest (by simp)
    forward := forall_mem_concat (fun s hs => h.forward s (hfront hs))
      (le_trans (h.forward newest hnewest) hlonger)
    below := forall_mem_concat
      (fun s hs => le_trans (h.below s (hfront hs)) hrun.high_le) hrun.below
    held := forall_mem_concat (fun s hs => h.held s (hfront hs))
      (Nat.lt_of_lt_of_le (h.held newest hnewest) (Nat.le_add_right _ _))
    views_eq := forall_mem_concat (fun s hs => h.views_eq_append (hfront hs) hrun.fresh_past)
      (h.join_views_eq hrun hold hlow)
    profile_eq := by
      refine forall_mem_concat
        (fun s hs r hr => h.profile_eq_append (hfront hs) hrun.fresh_past hr) ?_
      intro r hr hspan
      rcases List.mem_append.mp hr with hr | hr
      · exact h.profile_eq newest hnewest r hr ((h.join_spans_old hrun hold hr).mp hspan)
      · rw [hrun.counted r hr, ← hprofile]
        rfl
    covered := fun r hr hcounted hrlow => by
      rcases List.mem_append.mp hr with hr | hr
      · obtain ⟨s, hs, hspan⟩ := h.covered r hr hcounted hrlow
        rcases List.mem_append.mp hs with hs | hs
        · exact ⟨s, List.mem_append_left _ hs, hspan⟩
        · rw [List.mem_singleton.mp hs] at hspan
          exact ⟨newest.join run, by simp, (h.join_spans_old hrun hold hr).mpr hspan⟩
      · exact ⟨newest.join run, by simp, h.join_spans_fresh hrun hr⟩
    begins := forall_mem_concat (fun s hs => h.begins_append (hfront hs) fresh)
      (h.begins_append hnewest fresh) }

end SegmentsSound

/-- The readings past one watermark are those up to a higher one and those past it. -/
theorem countP_past_eq_add {low low' : Cursor} (hlow : low ≤ low') (readings : List Reading)
    (P : Reading → Prop) [DecidablePred P] :
    readings.countP (fun r => P r ∧ low < r.cursor) =
      readings.countP (fun r => P r ∧ low < r.cursor ∧ r.cursor ≤ low') +
        readings.countP (fun r => P r ∧ low' < r.cursor) := by
  rw [← countP_or]
  · refine List.countP_congr fun r _ => ?_
    simp only [decide_eq_true_eq]
    constructor
    · rintro ⟨hP, hr⟩
      by_cases hpast : low' < r.cursor
      · exact .inr ⟨hP, hpast⟩
      · exact .inl ⟨hP, hr, not_lt.mp hpast⟩
    · rintro (⟨hP, hr, _⟩ | ⟨hP, hpast⟩)
      · exact ⟨hP, hr⟩
      · exact ⟨hP, lt_of_le_of_lt hlow hpast⟩
  · rintro r _ ⟨_, _, hle⟩ ⟨_, hpast⟩
    exact not_lt.mpr hle hpast

namespace SegmentsSound

variable {segments front : List Segment} {readings : List Reading} {low low' high c : Cursor}
  {s t newest : Segment} {removed : Cursor → Nat}

/-- How many views are to be taken from each segment when the low watermark rises. -/
def Removes (removed : Cursor → Nat) (segments : List Segment) (readings : List Reading)
    (low low' : Cursor) : Prop :=
  ∀ s ∈ segments, removed s.first =
    readings.countP fun r => s.Spans r.cursor ∧ low < r.cursor ∧ r.cursor ≤ low'

/-- Taking back what expired leaves the views past the new low watermark. -/
theorem views_sub_removed (h : SegmentsSound segments readings low high) (hlow : low ≤ low')
    (hremoved : Removes removed segments readings low low') {s : Segment} (hs : s ∈ segments) :
    s.views - removed s.first =
      readings.countP fun r => s.Spans r.cursor ∧ low' < r.cursor := by
  rw [h.views_eq s hs, hremoved s hs,
    countP_past_eq_add hlow readings fun r => s.Spans r.cursor]
  omega

/-- A segment is left after a take-back exactly when it spans a view past the new low
watermark. -/
theorem cut?_isSome_iff (h : SegmentsSound segments readings low high) (hlow : low ≤ low')
    (hremoved : Removes removed segments readings low low') {s : Segment} (hs : s ∈ segments) :
    (∃ t, s.cut? removed = some t) ↔ ∃ r ∈ readings, s.Spans r.cursor ∧ low' < r.cursor := by
  have hviews := h.views_sub_removed hlow hremoved hs
  constructor
  · rintro ⟨t, ht⟩
    obtain ⟨hlt, _⟩ := Segment.cut?_eq_some_iff.mp ht
    have hpos : 0 < s.views - removed s.first := Nat.sub_pos_of_lt hlt
    rw [hviews, List.countP_pos_iff] at hpos
    simpa using hpos
  · rintro ⟨r, hr, hspan, hpast⟩
    have hpos : 0 < s.views - removed s.first := by
      rw [hviews, List.countP_pos_iff]
      exact ⟨r, hr, by simp [hspan, hpast]⟩
    exact ⟨_, Segment.cut?_eq_some_iff.mpr ⟨by omega, rfl⟩⟩

/-- Segments that are cut down by what expired are sound for the new low watermark. -/
theorem cut (h : SegmentsSound segments readings low high) (hlow : low ≤ low')
    (hremoved : Removes removed segments readings low low') :
    SegmentsSound (segments.filterMap (Segment.cut? removed)) readings low' high := by
  have hcut {t : Segment} (ht : t ∈ segments.filterMap (Segment.cut? removed)) :
      ∃ s ∈ segments, removed s.first < s.views ∧
        t = { s with views := s.views - removed s.first } := by
    obtain ⟨s, hs, hst⟩ := List.mem_filterMap.mp ht
    exact ⟨s, hs, Segment.cut?_eq_some_iff.mp hst⟩
  refine ⟨?_, fun t ht => ?_, fun t ht => ?_, fun t ht => ?_, fun t ht => ?_,
    fun t ht r hr hspan => ?_, fun r hr hcounted hrlow => ?_, fun t ht => ?_⟩
  · refine h.ordered.filterMap _ fun s t hst s' hs t' ht => ?_
    obtain ⟨_, rfl⟩ := Segment.cut?_eq_some_iff.mp hs
    obtain ⟨_, rfl⟩ := Segment.cut?_eq_some_iff.mp ht
    exact hst
  · obtain ⟨s, hs, _, rfl⟩ := hcut ht
    exact h.forward s hs
  · obtain ⟨s, hs, _, rfl⟩ := hcut ht
    exact h.below s hs
  · obtain ⟨s, hs, hlt, rfl⟩ := hcut ht
    exact Nat.sub_pos_of_lt hlt
  · obtain ⟨s, hs, _, rfl⟩ := hcut ht
    exact h.views_sub_removed hlow hremoved hs
  · obtain ⟨s, hs, _, rfl⟩ := hcut ht
    exact h.profile_eq s hs r hr hspan
  · obtain ⟨s, hs, hspan⟩ := h.covered r hr hcounted (lt_of_le_of_lt hlow hrlow)
    obtain ⟨t, ht⟩ := (h.cut?_isSome_iff hlow hremoved hs).mpr ⟨r, hr, hspan, hrlow⟩
    obtain ⟨_, rfl⟩ := Segment.cut?_eq_some_iff.mp ht
    exact ⟨_, List.mem_filterMap.mpr ⟨s, hs, ht⟩, hspan⟩
  · obtain ⟨s, hs, _, rfl⟩ := hcut ht
    exact h.begins s hs

/-- As long as any segment is left after a take-back, the newest one is. -/
theorem cut_newest (h : SegmentsSound (front ++ [newest]) readings low high) (hlow : low ≤ low')
    (hremoved : Removes removed (front ++ [newest]) readings low low')
    (hleft : (front ++ [newest]).filterMap (Segment.cut? removed) ≠ []) :
    ∃ t, newest.cut? removed = some t := by
  obtain ⟨t, ht⟩ := List.exists_mem_of_ne_nil _ hleft
  obtain ⟨s, hs, hst⟩ := List.mem_filterMap.mp ht
  rcases List.mem_append.mp hs with hfront | hlast
  · -- The views left in an older segment lie before all views of the newest.
    have hnewest : newest ∈ front ++ [newest] := by simp
    obtain ⟨old, _, hold, holdLow⟩ := (h.cut?_isSome_iff hlow hremoved hs).mp ⟨t, hst⟩
    have hpos := h.held newest hnewest
    rw [h.views_eq newest hnewest, List.countP_pos_iff] at hpos
    obtain ⟨r, hr, hspan⟩ := hpos
    simp only [decide_eq_true_eq] at hspan
    have hbefore : s.last < newest.first :=
      (List.pairwise_append.mp h.ordered).2.2 s hfront newest (by simp)
    refine (h.cut?_isSome_iff hlow hremoved hnewest).mpr ⟨r, hr, hspan.1, ?_⟩
    exact lt_of_lt_of_le (lt_of_lt_of_le holdLow hold.2)
      (le_trans (le_of_lt hbefore) hspan.1.1)
  · rw [List.mem_singleton.mp hlast] at hst
    exact ⟨t, hst⟩

/-- A cursor lies in one segment at most. -/
theorem eq_of_spans (h : SegmentsSound segments readings low high) (hs : s ∈ segments)
    (ht : t ∈ segments) (hsc : s.Spans c) (htc : t.Spans c) : s = t :=
  Segment.eq_of_spans h.ordered hs ht hsc htc

/-- No two segments begin at one cursor. -/
theorem eq_of_first_eq (h : SegmentsSound segments readings low high) (hs : s ∈ segments)
    (ht : t ∈ segments) (hfirst : s.first = t.first) : s = t :=
  h.eq_of_spans hs ht ⟨le_refl _, h.forward s hs⟩
    ⟨hfirst ▸ le_refl _, hfirst ▸ h.forward t ht⟩

/-- The views of segments with a kind of profile are the readings counted under such profiles. -/
theorem sum_views (h : SegmentsSound segments readings low high) (K : Profile → Prop)
    [DecidablePred K] : ((segments.filter (K ·.profile)).map Segment.views).sum =
      readings.countP fun r => (∃ p ∈ r.profile, K p) ∧ low < r.cursor := by
  have hviews : (segments.filter (K ·.profile)).map Segment.views =
      (segments.filter (K ·.profile)).map fun s =>
        readings.countP fun r => s.Spans r.cursor ∧ low < r.cursor :=
    List.map_congr_left fun s hs => h.views_eq s (List.mem_filter.mp hs).1
  rw [hviews, ← countP_exists]
  · refine List.countP_congr fun r hr => ?_
    simp only [List.mem_filter, decide_eq_true_eq]
    constructor
    · rintro ⟨s, ⟨hs, hK⟩, hspan, hlow⟩
      exact ⟨⟨s.profile, h.profile_eq s hs r hr hspan, hK⟩, hlow⟩
    · rintro ⟨⟨p, hp, hK⟩, hlow⟩
      obtain ⟨s, hs, hspan⟩ := h.covered r hr (Option.isSome_of_mem hp) hlow
      have hprofile : s.profile = p :=
        Option.some.inj ((h.profile_eq s hs r hr hspan).symm.trans hp)
      exact ⟨s, ⟨hs, hprofile ▸ hK⟩, hspan, hlow⟩
  · refine List.Pairwise.filter _ (h.ordered.imp fun {s t} hst r _ hs ht => ?_)
    have hlt := lt_of_le_of_lt hs.1.2 hst
    exact lt_irrefl _ (lt_of_lt_of_le hlt ht.1.1)

end SegmentsSound

end Pacing
