import Pacing.Proofs.WindowAccounts

/-!
# Taking back what was read

A take-back finds the views to remove by where their cursors lie. When every view that it finds in
a segment has been read, and it reads everything that was read up to where it comes, then what it
removes from each bucket and each segment is what was counted there, and the accounts of the window
stay in order with a higher low watermark.
-/

namespace Pacing

namespace Accounts

variable {state : WindowState} {readings : List Reading} {low high : Cursor} {v : View}
  {id : String} {segment : Segment} {b : Bucket}

/-- A view is found in the segment of its boost that spans it. -/
theorem countedIn?_eq_some_iff (h : Accounts state readings low high) :
    TakeBack.countedIn? state v = some (id, segment) ↔
      v.boost? = some id ∧ segment ∈ segmentsOf state.holdings[id]? ∧ segment.Spans v.cursor := by
  have hfind : state.segmentAt? id v.cursor = some segment ↔
      segment ∈ segmentsOf state.holdings[id]? ∧ segment.Spans v.cursor := by
    have hsound := (h.holdings id).segments
    unfold WindowState.segmentAt?
    cases hheld : state.holdings[id]? with
    | none => simp
    | some held =>
      rw [hheld, segmentsOf_some] at hsound
      rw [Option.bind_some, segmentsOf_some]
      constructor
      · intro hfound
        exact ⟨List.mem_of_find?_eq_some hfound, by simpa using List.find?_some hfound⟩
      · rintro ⟨hmem, hspan⟩
        have hsome : (held.segmentAt? v.cursor).isSome := by
          rw [Holding.segmentAt?, List.find?_isSome]
          exact ⟨segment, hmem, by simpa⟩
        obtain ⟨found, hfound⟩ := Option.isSome_iff_exists.mp hsome
        rw [hfound, hsound.eq_of_spans (List.mem_of_find?_eq_some hfound) hmem
          (by simpa using List.find?_some hfound) hspan]
  rw [← hfind]
  unfold TakeBack.countedIn?
  rw [show CampaignTag.resolve? v.tag = v.boost? from rfl]
  simp only [Option.bind_eq_some_iff, Option.map_eq_some_iff, Prod.mk.injEq]
  constructor
  · rintro ⟨_, hboost, _, hsegment, rfl, rfl⟩
    exact ⟨hboost, hsegment⟩
  · rintro ⟨hboost, hsegment⟩
    exact ⟨id, hboost, segment, hsegment, rfl, rfl⟩

/-- A view is staged for a segment of its boost exactly when that segment spans it. -/
theorem startOf?_eq_iff (h : Accounts state readings low high)
    (hsegment : segment ∈ segmentsOf state.holdings[id]?) :
    TakeBack.startOf? state v = some ⟨id, segment.first⟩ ↔
      v.boost? = some id ∧ segment.Spans v.cursor := by
  have hsound := (h.holdings id).segments
  simp only [TakeBack.startOf?, Option.map_eq_some_iff, Prod.exists, SegmentStart.mk.injEq]
  constructor
  · rintro ⟨i, found, hfound, rfl, hfirst⟩
    obtain ⟨hboost, hmem, hspan⟩ := h.countedIn?_eq_some_iff.mp hfound
    exact ⟨hboost, hsound.eq_of_first_eq hmem hsegment hfirst ▸ hspan⟩
  · rintro ⟨hboost, hspan⟩
    exact ⟨id, segment, h.countedIn?_eq_some_iff.mpr ⟨hboost, hsegment, hspan⟩, rfl, rfl⟩

/-- A view that was read and not taken back since is found exactly in the buckets that it was
counted in. -/
theorem mem_bucketsOf_iff (h : Accounts state readings low high) {r : Reading} (hr : r ∈ readings)
    (hlow : low < r.cursor) : b ∈ TakeBack.bucketsOf state r.view ↔ b ∈ r.buckets := by
  constructor
  · intro hb
    cases hfound : TakeBack.countedIn? state r.view with
    | none => simp [TakeBack.bucketsOf, hfound] at hb
    | some found =>
      obtain ⟨i, s⟩ := found
      obtain ⟨hboost, hmem, hspan⟩ := h.countedIn?_eq_some_iff.mp hfound
      have hprofile := (h.holdings i).segments.profile_eq s hmem r
        (mem_readingsOf.mpr ⟨hr, hboost⟩) hspan
      simpa [TakeBack.bucketsOf, hfound, Reading.buckets, hprofile] using hb
  · intro hb
    obtain ⟨p, hp⟩ : ∃ p, r.profile = some p := by
      cases hprofile : r.profile with
      | none => simp [Reading.buckets, hprofile] at hb
      | some p => exact ⟨p, rfl⟩
    obtain ⟨i, hboost⟩ := Option.isSome_iff_exists.mp (h.attributed r hr (by simp [hp]))
    have hmem := mem_readingsOf.mpr ⟨hr, hboost⟩
    obtain ⟨s, hs, hspan⟩ := (h.holdings i).segments.covered r hmem (by simp [hp]) hlow
    have hfound := h.countedIn?_eq_some_iff.mpr ⟨hboost, hs, hspan⟩
    have hprofile := (h.holdings i).segments.profile_eq s hs r hmem hspan
    simpa [TakeBack.bucketsOf, hfound, Reading.buckets, hprofile] using hb

/-- A view that was read and not taken back since is found exactly when it was counted. -/
theorem isSome_countedIn?_iff (h : Accounts state readings low high) {r : Reading}
    (hr : r ∈ readings) (hlow : low < r.cursor) :
    (TakeBack.countedIn? state r.view).isSome ↔ r.profile.isSome := by
  -- Every profile has a bucket, so what has no bucket has no profile.
  have hbuckets (p : Profile) : p.buckets ≠ [] :=
    List.ne_nil_of_mem (p.general_mem_buckets_iff.mpr rfl)
  have hsame : TakeBack.bucketsOf state r.view = [] ↔ r.buckets = [] := by
    simp only [List.eq_nil_iff_forall_not_mem, h.mem_bucketsOf_iff hr hlow]
  rw [← not_iff_not, Option.not_isSome_iff_eq_none, Option.not_isSome_iff_eq_none]
  cases hfound : TakeBack.countedIn? state r.view <;> cases hprofile : r.profile <;>
    simp_all [TakeBack.bucketsOf, Reading.buckets]

/-- What a take-back must read for the accounts to stay in order: all that was read up to where it
comes, and, of views that lie in a segment, nothing else. -/
structure Expires (state : WindowState) (readings : List Reading) (low high : Cursor)
    (views : List View) : Prop where
  past : ∀ v ∈ views, low < v.cursor
  below : ∀ v ∈ views, v.cursor ≤ high
  complete : ∀ r ∈ readings, low < r.cursor → r.cursor ≤ reach views low → r.view ∈ views
  read : ∀ v ∈ views, (TakeBack.countedIn? state v).isSome → ∃ r ∈ readings, r.view = v

section TakeBack

variable {views : List View} {s : TakeBack}

/-- The views of a take-back that lie in a segment are those of the readings that expire. -/
private theorem countP_expired (h : Accounts state readings low high)
    (hviews : Expires state readings low high views)
    (hrising : views.Pairwise (·.cursor < ·.cursor)) {P : View → Prop} [DecidablePred P]
    (hP : ∀ v, P v → (TakeBack.countedIn? state v).isSome) :
    views.countP (fun v => P v) =
      readings.countP fun r => P r.view ∧ low < r.cursor ∧ r.cursor ≤ reach views low := by
  have hnodup : views.Nodup :=
    List.Nodup.of_map View.cursor (List.pairwise_map.mpr hrising).nodup
  have hperm : (views.filter (fun v => P v)).Perm ((readings.filter fun r =>
      P r.view ∧ low < r.cursor ∧ r.cursor ≤ reach views low).map Reading.view) := by
    refine (List.perm_ext_iff_of_nodup (hnodup.filter _)
      (h.nodup_views.sublist (List.filter_sublist.map _))).mpr fun v => ?_
    simp only [List.mem_filter, List.mem_map, decide_eq_true_eq]
    constructor
    · rintro ⟨hv, hPv⟩
      obtain ⟨r, hr, rfl⟩ := hviews.read v hv (hP v hPv)
      exact ⟨r, ⟨hr, hPv, hviews.past _ hv, le_reach hrising hv⟩, rfl⟩
    · rintro ⟨r, ⟨hr, hPr, hlow, hreach⟩, rfl⟩
      exact ⟨hviews.complete r hr hlow hreach, hPr⟩
  rw [List.countP_eq_length_filter, List.countP_eq_length_filter, hperm.length_eq, List.length_map]

/-- What a take-back removes from a segment are the views that it counted and that expire. -/
theorem removed_eq (h : Accounts state readings low high) (hs : TakeBack.SumsUp state views s)
    (hviews : Expires state readings low high views)
    (hsegment : segment ∈ segmentsOf state.holdings[id]?) :
    s.removed.getD ⟨id, segment.first⟩ 0 = (readingsOf readings id).countP fun r =>
      segment.Spans r.cursor ∧ low < r.cursor ∧ r.cursor ≤ reach views low := by
  rw [hs.removed_eq, h.countP_expired hviews hs.rising, readingsOf, List.countP_filter]
  · refine List.countP_congr fun r _ => ?_
    have hstart : TakeBack.startOf? state r.view = some ⟨id, segment.first⟩ ↔
        r.boost? = some id ∧ segment.Spans r.cursor := h.startOf?_eq_iff hsegment
    simp only [hstart, Bool.and_eq_true, decide_eq_true_eq]
    tauto
  · intro v hv
    simp only [TakeBack.startOf?, Option.map_eq_some_iff] at hv
    obtain ⟨found, hfound, _⟩ := hv
    simp [hfound]

/-- What a bucket loses are the views that were counted in it and expire. -/
theorem lost_eq (h : Accounts state readings low high) (hs : TakeBack.SumsUp state views s)
    (hviews : Expires state readings low high views) (b : Bucket) :
    s.lost.getD b 0 = readings.countP fun r =>
      b ∈ r.buckets ∧ low < r.cursor ∧ r.cursor ≤ reach views low := by
  rw [hs.lost_eq, h.countP_expired hviews hs.rising]
  · refine List.countP_congr fun r hr => ?_
    simp only [decide_eq_true_eq]
    constructor
    · rintro ⟨hb, hlow, hreach⟩
      exact ⟨(h.mem_bucketsOf_iff hr hlow).mp hb, hlow, hreach⟩
    · rintro ⟨hb, hlow, hreach⟩
      exact ⟨(h.mem_bucketsOf_iff hr hlow).mpr hb, hlow, hreach⟩
  · intro v hb
    cases hfound : TakeBack.countedIn? state v with
    | none => simp [TakeBack.bucketsOf, hfound] at hb
    | some found => rfl

/-- After a take-back every boost holds what was read of it past the new low watermark. -/
private theorem holding_commitTakeBack (h : Accounts state readings low high)
    (hs : TakeBack.SumsUp state views s) (hviews : Expires state readings low high views)
    (id : String) :
    HoldingSound (state.commitTakeBack s).holdings[id]? (readingsOf readings id)
      (reach views low) high := by
  have hlow : low ≤ reach views low := start_le_reach hviews.past
  have hsound := h.holdings id
  cases hheld : state.holdings[id]? with
  | none =>
    rw [hheld] at hsound
    rw [state.holding_commitTakeBack_of_none s hheld]
    refine ⟨SegmentsSound.nil_iff.mpr fun r hr hcounted => ?_, by simp, by simp⟩
    exact le_trans (SegmentsSound.nil_iff.mp hsound.segments r hr hcounted) hlow
  | some held =>
    rw [hheld] at hsound
    have hsegments := hsound.segments
    rw [segmentsOf_some] at hsegments
    rw [state.holding_commitTakeBack_of_some s hheld (hsound.nonempty held rfl) hsegments.distinct]
    refine hsound.cut hlow fun segment hsegment => ?_
    exact h.removed_eq hs hviews (by rwa [hheld])

/-- After a take-back every total counts what was read past the new low watermark. -/
private theorem total_commitTakeBack (h : Accounts state readings low high)
    (hs : TakeBack.SumsUp state views s) (hviews : Expires state readings low high views)
    (hsize : readings.length < 2 ^ 64) (b : Bucket) :
    ((state.commitTakeBack s).total b).toNat =
      readings.countP fun r => b ∈ r.buckets ∧ reach views low < r.cursor := by
  have hsplit := countP_past_eq_add (start_le_reach hviews.past) readings fun r => b ∈ r.buckets
  have hle := List.countP_le_length (p := fun r : Reading =>
    b ∈ r.buckets ∧ reach views low < r.cursor) (l := readings)
  rw [WindowState.total_commitTakeBack, h.totals hsize b, h.lost_eq hs hviews, UInt64.toNat_ofNat',
    hsplit,
    Nat.add_sub_cancel_left, Nat.mod_eq_of_lt (by omega)]

/-- Committing a take-back keeps the accounts in order, with the low watermark raised to where it
came. -/
theorem commitTakeBack (h : Accounts state readings low high) (hs : TakeBack.SumsUp state views s)
    (hviews : Expires state readings low high views) :
    Accounts (state.commitTakeBack s) readings (reach views low) high where
  low_eq := hs.low_eq_reach h.low_eq
  high_eq := (state.high_commitTakeBack s).trans h.high_eq
  low_le_high := by
    rcases List.eq_nil_or_concat' views with rfl | ⟨front, last, rfl⟩
    · exact h.low_le_high
    · rw [reach_of_getLast? List.getLast?_concat]
      exact hviews.below last (by simp)
  rising := h.rising
  le_high := h.le_high
  attributed := h.attributed
  holdings := h.holding_commitTakeBack hs hviews
  totals := h.total_commitTakeBack hs hviews

end TakeBack

end Accounts

end Pacing
