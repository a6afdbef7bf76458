import Pacing.Proofs.ScanSemantics

/-!
# What a complete take-back has staged, and what it removes

A take-back finds the segment in which each expired view was counted and stages how many views to
take from each bucket and each segment. After a complete take-back the stage is a summary of the
views read, and committing it cuts every segment down by its own number and drops the segments that
are used up.
-/

namespace Pacing

namespace TakeBack

/-- The start of the segment in which a view was counted. -/
def startOf? (state : WindowState) (v : View) : Option SegmentStart :=
  (countedIn? state v).map fun (id, segment) => ⟨id, segment.first⟩

/-- The buckets of the segment in which a view was counted. -/
def bucketsOf (state : WindowState) (v : View) : List Bucket :=
  ((countedIn? state v).map fun (_, segment) => segment.profile.buckets).getD []

/-- A stage sums up the views read. -/
structure SumsUp (state : WindowState) (views : List View) (s : TakeBack) : Prop where
  rising : views.Pairwise (·.cursor < ·.cursor)
  tally_eq : s.tally =
    { events := views.length
      counted := views.countP fun v => (countedIn? state v).isSome
      unresolved := views.countP fun v => (countedIn? state v).isNone
      last := views.getLast?.map View.cursor }
  lost_eq (b : Bucket) : s.lost.getD b 0 = views.countP fun v => b ∈ bucketsOf state v
  removed_eq (start : SegmentStart) : s.removed.getD start 0 =
    views.countP fun v => startOf? state v = some start
  removed_pos {start : SegmentStart} {n : Nat} : s.removed[start]? = some n → 0 < n

variable {state : WindowState} {views : List View} {s s' : TakeBack} {v : View}

/-- A take-back that has not begun sums up no views. -/
theorem SumsUp.empty (state : WindowState) : SumsUp state [] {} where
  rising := List.Pairwise.nil
  tally_eq := rfl
  lost_eq b := by simp
  removed_eq start := by simp
  removed_pos := by simp

/-- Every view that is noted without an error keeps the stage a summary of what was read. -/
theorem SumsUp.note (h : SumsUp state views s) (hnote : TakeBack.note state s v = .ok s') :
    SumsUp state (views ++ [v]) s' := by
  unfold TakeBack.note at hnote
  obtain ⟨tally, hobserve, hnote⟩ := bind_eq_ok_iff.mp hnote
  obtain ⟨hpast, rfl⟩ := Tally.observe_eq_ok_iff.mp hobserve
  have hrising : (views ++ [v]).Pairwise (·.cursor < ·.cursor) :=
    pairwise_concat_of_last h.rising (by simpa [h.tally_eq] using hpast)
  cases hcounted : countedIn? state v with
  | none =>
    simp only [hcounted, pure, Except.pure, Except.ok.injEq] at hnote
    rw [← hnote]
    refine ⟨hrising, ?_, fun b => ?_, fun start => ?_, h.removed_pos⟩
    · simp [h.tally_eq, Tally.skip, hcounted]
    · simp [h.lost_eq, bucketsOf, hcounted]
    · simp [h.removed_eq, startOf?, hcounted]
  | some found =>
    obtain ⟨id, segment⟩ := found
    simp only [hcounted, pure, Except.pure, Except.ok.injEq] at hnote
    rw [← hnote]
    refine ⟨hrising, ?_, fun b => ?_, fun start => ?_, fun {start n} hn => ?_⟩
    · simp [h.tally_eq, Tally.count, hcounted]
    · have hlost := getD_gain s.lost segment.profile b
      unfold Intake.gain at hlost
      simp [hlost, h.lost_eq, bucketsOf, hcounted]
    · have hremoved := h.removed_eq start
      rw [Std.ExtTreeMap.getD_eq_getD_getElem?] at hremoved ⊢
      rw [Std.ExtTreeMap.getElem?_alter]
      by_cases hstart : (⟨id, segment.first⟩ : SegmentStart) = start
      · subst hstart
        simp [hremoved, startOf?, hcounted]
      · simp [hremoved, startOf?, hcounted, hstart, Std.LawfulEqCmp.compare_eq_iff_eq]
    · rw [Std.ExtTreeMap.getElem?_alter] at hn
      split at hn
      · rw [← Option.some.inj hn]
        exact Nat.succ_pos _
      · exact h.removed_pos hn

/-- Views that are all noted are summed up. -/
theorem sumsUp_of_readWhile (hread : readWhile (TakeBack.note state) {} views = (s, none)) :
    SumsUp state views s := by
  simpa using readWhile_relates (fun h hnote => SumsUp.note h hnote) (SumsUp.empty state) hread

/-- A complete take-back sums up the views of its scan. -/
theorem sumsUp_of_complete {scan : Scan}
    (hread : readScan .prune (TakeBack.note state) {} scan = (s, none)) :
    SumsUp state scan.views s :=
  sumsUp_of_readWhile (readScan_eq_complete_iff.mp hread).2

end TakeBack

namespace Segment

/-- What is left of a segment after views are taken back, given for each start how many. -/
def cut? (removed : Cursor → Nat) (s : Segment) : Option Segment :=
  if s.views ≤ removed s.first then none else some { s with views := s.views - removed s.first }

/-- A segment is kept if views are left in it, and then without those removed. -/
theorem cut?_eq_some_iff {removed : Cursor → Nat} {s t : Segment} :
    s.cut? removed = some t ↔
      removed s.first < s.views ∧ t = { s with views := s.views - removed s.first } := by
  unfold cut?
  split <;> simp_all [eq_comm]

/-- Cutting twice is cutting once by both numbers. -/
theorem cut?_bind (removed removed' : Cursor → Nat) (s : Segment) :
    (s.cut? removed).bind (cut? removed') = s.cut? fun c => removed c + removed' c := by
  by_cases hused : s.views ≤ removed s.first
  · have hboth : s.views ≤ removed s.first + removed' s.first := by omega
    simp [cut?, hused, hboth]
  · by_cases hboth : s.views ≤ removed s.first + removed' s.first
    · have hrest : s.views - removed s.first ≤ removed' s.first := by omega
      simp [cut?, hused, hboth, hrest]
    · have hrest : ¬s.views - removed s.first ≤ removed' s.first := by omega
      simp [cut?, hused, hboth, hrest, Nat.sub_add_eq]

end Segment

namespace Holding

/-- The holding of given segments; none without any. -/
def ofSegments? (segments : List Segment) (isSealed : Bool) : Option Holding :=
  if segments = [] then none else some ⟨segments, isSealed⟩

/-- Segments that can be told apart by their starts and each hold a view. -/
structure Distinct (segments : List Segment) : Prop where
  first_ne : segments.Pairwise (·.first ≠ ·.first)
  held : ∀ s ∈ segments, 0 < s.views

/-- Cutting segments leaves those that remain distinct. -/
theorem Distinct.cut {segments : List Segment} (h : Distinct segments) (removed : Cursor → Nat) :
    Distinct (segments.filterMap (Segment.cut? removed)) where
  first_ne := by
    refine h.first_ne.filterMap _ fun s t hst s' hs t' ht => ?_
    obtain ⟨_, rfl⟩ := Segment.cut?_eq_some_iff.mp hs
    obtain ⟨_, rfl⟩ := Segment.cut?_eq_some_iff.mp ht
    exact hst
  held t ht := by
    obtain ⟨s, _, hs⟩ := List.mem_filterMap.mp ht
    obtain ⟨hlt, rfl⟩ := Segment.cut?_eq_some_iff.mp hs
    exact Nat.sub_pos_of_lt hlt

/-- Segments that each hold a view are not changed when nothing is taken back. -/
theorem filterMap_cut?_zero {segments : List Segment} (h : ∀ s ∈ segments, 0 < s.views)
    {removed : Cursor → Nat} (hzero : ∀ s ∈ segments, removed s.first = 0) :
    segments.filterMap (Segment.cut? removed) = segments := by
  induction segments with
  | nil => rfl
  | cons s rest ih =>
    have hs : s.cut? removed = some s := by
      rw [Segment.cut?_eq_some_iff, hzero s (by simp)]
      exact ⟨h s (by simp), rfl⟩
    rw [List.filterMap_cons_some hs, ih (fun t ht => h t (by simp [ht]))
      (fun t ht => hzero t (by simp [ht]))]

/-- What taking views from a segment keeps, as long as it leaves any, holds of all segments that are
left. -/
theorem forall_mem_reduce {P : Segment → Prop} {start : Cursor} {n : Nat}
    (hP : ∀ s, P s → n < s.views → P { s with views := s.views - n }) {segments : List Segment}
    (h : ∀ s ∈ segments, P s) : ∀ s ∈ reduce start n segments, P s := by
  induction segments with
  | nil => simp [reduce]
  | cons s rest ih =>
    obtain ⟨hs, hrest⟩ := List.forall_mem_cons.mp h
    unfold reduce
    split
    · split
      · exact hrest
      · rename_i hleft
        exact List.forall_mem_cons.mpr ⟨hP s hs (Nat.not_le.mp hleft), hrest⟩
    · exact List.forall_mem_cons.mpr ⟨hs, ih hrest⟩

/-- Taking views from one start cuts the one segment that begins there. -/
theorem reduce_eq_filterMap {segments : List Segment} (h : Distinct segments) (start : Cursor)
    (n : Nat) : reduce start n segments =
      segments.filterMap (Segment.cut? fun c => if c = start then n else 0) := by
  obtain ⟨hne, hheld⟩ := h
  induction segments with
  | nil => rfl
  | cons s rest ih =>
    obtain ⟨hs, hrest⟩ := List.pairwise_cons.mp hne
    have hheld' : ∀ t ∈ rest, 0 < t.views := fun t ht => hheld t (by simp [ht])
    by_cases hstart : s.first = start
    · have hothers : rest.filterMap (Segment.cut? fun c => if c = start then n else 0) = rest :=
        filterMap_cut?_zero hheld' fun t ht => if_neg fun he => hs t ht (hstart.trans he.symm)
      simp only [reduce, hstart, if_true, List.filterMap_cons, hothers, Segment.cut?]
      split <;> rfl
    · have hkept : s.cut? (fun c => if c = start then n else 0) = some s := by
        rw [Segment.cut?_eq_some_iff, if_neg hstart]
        exact ⟨hheld s (by simp), rfl⟩
      rw [List.filterMap_cons_some hkept, ← ih hrest hheld']
      simp [reduce, hstart]

/-- Taking views back changes the segments of a holding and keeps its seal. -/
theorem ofSegments?_bind_takeBack? (segments : List Segment) (isSealed : Bool) (start : Cursor)
    (n : Nat) : (ofSegments? segments isSealed).bind (·.takeBack? start n) =
      ofSegments? (reduce start n segments) isSealed := by
  unfold ofSegments?
  cases segments with
  | nil => rfl
  | cons s rest =>
    simp only [List.cons_ne_nil, if_false, Option.bind_some, takeBack?]
    split <;> simp_all

/-- Taking views back from several starts cuts every segment by what is taken from its start. -/
theorem foldl_takeBack? {segments : List Segment} (h : Distinct segments) (isSealed : Bool)
    (removals : List (SegmentStart × Nat)) :
    removals.foldl (fun held r => held.bind (·.takeBack? r.1.first r.2))
        (ofSegments? segments isSealed) =
      ofSegments? (segments.filterMap (Segment.cut? fun c =>
        ((removals.filter (·.1.first = c)).map Prod.snd).sum)) isSealed := by
  induction removals generalizing segments with
  | nil => simp [filterMap_cut?_zero h.held]
  | cons r rest ih =>
    rw [List.foldl_cons, ofSegments?_bind_takeBack?, reduce_eq_filterMap h, ih (h.cut _),
      List.filterMap_filterMap]
    congr 2
    funext s
    rw [Segment.cut?_bind]
    congr 1
    funext c
    by_cases hc : r.1.first = c
    · simp [hc]
    · simp [hc, Ne.symm hc]

end Holding

end Pacing
