import Pacing.Proofs.ChronicleAccounts

/-!
# A take-back finds what it takes away

No total falls below zero, and a boost that has gone away loses nothing. That the commit of a
take-back says so is a safeguard and not a rule: when every view taken back has been read, each
bucket has the views that it is to lose, each segment is there with the views to be taken from it,
and this is so at whatever point of the commit and in whatever order it meets its entries.
-/

namespace Pacing

namespace WindowState

/-- Every bucket has the views that a take-back takes from it, and every segment that it takes views
from is there and has them. -/
structure Affords (state : WindowState) (s : TakeBack) : Prop where
  bucket {b : Bucket} {n : Nat} : s.lost[b]? = some n → n ≤ (state.total b).toNat
  segment {start : SegmentStart} {n : Nat} : s.removed[start]? = some n →
    ∃ held, state.holdings[start.boost]? = some held ∧
      ∃ segment ∈ held.segments, segment.first = start.first ∧ n ≤ segment.views

/-- In whatever order a commit meets the entries of a take-back, each of them finds what it takes
away after all those before it. -/
structure NeverClamps (state : WindowState) (s : TakeBack) : Prop where
  bucket {before after : List (Bucket × Nat)} {b : Bucket} {n : Nat} :
    (before ++ (b, n) :: after).Perm s.lost.toList →
      n ≤ ((state.subtractTotals before).total b).toNat
  segment {before after : List (SegmentStart × Nat)} {start : SegmentStart} {n : Nat} :
    (before ++ (start, n) :: after).Perm s.removed.toList →
      ∃ held, (state.takeBackAll before).holdings[start.boost]? = some held ∧
        ∃ segment, held.segments.find? (·.first = start.first) = some segment ∧ n ≤ segment.views

end WindowState

/-- A segment is found by where it begins. -/
theorem Holding.Distinct.find?_first_eq {segments : List Segment} (h : Distinct segments)
    {s : Segment} (hs : s ∈ segments) : segments.find? (·.first = s.first) = some s := by
  obtain ⟨front, after, rfl⟩ := List.append_of_mem hs
  have hfront : ∀ t ∈ front, ¬t.first = s.first := fun t ht =>
    (List.pairwise_append.mp h.first_ne).2.2 t ht s List.mem_cons_self
  rw [List.find?_append, List.find?_eq_none.mpr (by simpa using hfront)]
  simp

namespace WindowState.Affords

variable {state : WindowState} {s : TakeBack}

/-- The entries before one of a segment leave that segment as it is. -/
private theorem segment_after {id : String} {held : Holding} {segment : Segment}
    (hheld : state.holdings[id]? = some held) (hsegment : segment ∈ held.segments)
    (hdistinct : Holding.Distinct held.segments) {before : List (SegmentStart × Nat)}
    (hbefore : before.filter (·.1 = ⟨id, segment.first⟩) = []) :
    ∃ left, (state.takeBackAll before).holdings[id]? = some left ∧
      left.segments.find? (·.first = segment.first) = some segment := by
  let removed (c : Cursor) : Nat := (((before.filter (·.1.boost = id)).filter
    (·.1.first = c)).map Prod.snd).sum
  have hfold : (state.takeBackAll before).holdings[id]? =
      Holding.ofSegments? (held.segments.filterMap (Segment.cut? removed)) held.isSealed := by
    have hwhole : some held = Holding.ofSegments? held.segments held.isSealed := by
      rw [Holding.ofSegments?, if_neg (List.ne_nil_of_mem hsegment)]
    rw [state.holding_takeBackAll, hheld, hwhole, Holding.foldl_takeBack? hdistinct]
  have hkept : segment ∈ held.segments.filterMap (Segment.cut? removed) := by
    have hzero : removed segment.first = 0 := by
      simp only [removed, filter_boost_filter_first, hbefore, List.map_nil, List.sum_nil]
    refine List.mem_filterMap.mpr ⟨segment, hsegment, Segment.cut?_eq_some_iff.mpr ?_⟩
    rw [hzero]
    exact ⟨hdistinct.held segment hsegment, rfl⟩
  rw [hfold, Holding.ofSegments?, if_neg (List.ne_nil_of_mem hkept)]
  exact ⟨_, rfl, (hdistinct.cut removed).find?_first_eq hkept⟩

/-- A take-back that a window affords as a whole is afforded at every point of its commit. -/
theorem neverClamps (h : state.Affords s)
    (hdistinct : ∀ id : String, ∀ g ∈ state.holdings[id]?, Holding.Distinct g.segments) :
    state.NeverClamps s where
  bucket {before after b n} hperm := by
    obtain ⟨hlost, hbefore⟩ := filter_before_eq_nil hperm
    rw [state.total_subtractTotals, hbefore, List.foldl_nil]
    exact h.bucket hlost
  segment {before after start n} hperm := by
    obtain ⟨hremoved, hbefore⟩ := filter_before_eq_nil hperm
    obtain ⟨held, hheld, segment, hsegment, hfirst, hn⟩ := h.segment hremoved
    have hstart : start = ⟨start.boost, segment.first⟩ := by rw [hfirst]
    rw [hstart] at hbefore
    obtain ⟨left, hleft, hfound⟩ :=
      segment_after hheld hsegment (hdistinct _ held hheld) hbefore
    rw [← hfirst]
    exact ⟨left, hleft, segment, hfound, hn⟩

end WindowState.Affords

namespace Accounts

variable {state : WindowState} {readings : List Reading} {low high : Cursor} {views : List View}
  {s : TakeBack}

/-- Segments of one boost can be told apart by where they begin. -/
theorem distinct (h : Accounts state readings low high) (id : String) :
    ∀ g ∈ state.holdings[id]?, Holding.Distinct g.segments := by
  intro g hg
  have hsegments := (h.holdings id).segments
  rw [hg, segmentsOf_some] at hsegments
  exact hsegments.distinct

/-- Accounts in order afford every take-back of what was read. -/
theorem affords (h : Accounts state readings low high) (hsize : readings.length < 2 ^ 64)
    (hs : TakeBack.SumsUp state views s) (hviews : Expires state readings low high views) :
    state.Affords s where
  bucket {b n} hn := by
    have hlost := h.lost_eq hs hviews b
    rw [Std.ExtTreeMap.getD_eq_getD_getElem?, hn, Option.getD_some] at hlost
    rw [hlost, h.totals hsize b]
    exact List.countP_mono_left fun r _ hr => by
      simp only [decide_eq_true_eq] at hr ⊢
      exact ⟨hr.1, hr.2.1⟩
  segment {start n} hn := by
    have hstaged := hs.removed_eq start
    rw [Std.ExtTreeMap.getD_eq_getD_getElem?, hn, Option.getD_some] at hstaged
    -- A staged start is that of a view which was found in a segment.
    obtain ⟨v, -, hv⟩ : ∃ v ∈ views, TakeBack.startOf? state v = some start := by
      have hpos := hs.removed_pos hn
      rw [hstaged, List.countP_pos_iff] at hpos
      simpa using hpos
    obtain ⟨⟨id, segment⟩, hfound, rfl⟩ := Option.map_eq_some_iff.mp hv
    obtain ⟨-, hsegment, -⟩ := h.countedIn?_eq_some_iff.mp hfound
    have hremoved := h.removed_eq hs hviews hsegment
    rw [Std.ExtTreeMap.getD_eq_getD_getElem?, hn, Option.getD_some] at hremoved
    have hle : n ≤ segment.views := by
      rw [hremoved, (h.holdings id).segments.views_eq segment hsegment]
      exact List.countP_mono_left fun r _ hr => by
        simp only [decide_eq_true_eq] at hr ⊢
        exact ⟨hr.1, hr.2.1⟩
    cases hheld : state.holdings[id]? with
    | none => simp [hheld] at hsegment
    | some held =>
      rw [hheld, segmentsOf_some] at hsegment
      exact ⟨held, rfl, segment, hsegment, rfl, hle⟩

end Accounts

namespace Window

variable {σ : Type} [ViewSource σ]

variable {state : WindowState} {start : Int64} {log : σ} {s : TakeBack}

/-- A scan of expired views has a stage when it asks the log for some range, and the log hands out
that range to its end. -/
theorem stage_scanTakeBack_eq_some_iff : (scanTakeBack state start log).stage = some s ↔
    ∃ low high scan, state.low = some low ∧ state.high = some high ∧
      (TakeBack.range low high start).isEmpty = false ∧
      (ViewSource.query log (TakeBack.range low high start)).1 = .ok scan ∧
      readScan .prune (TakeBack.note state) {} scan = (s, none) := by
  unfold scanTakeBack
  cases state.low with
  | none => simp
  | some low =>
    cases state.high with
    | none => simp
    | some high =>
      cases hempty : (TakeBack.range low high start).isEmpty with
      | true => simp [hempty]
      | false =>
        cases hquery : ViewSource.query log (TakeBack.range low high start) with
        | mk answer log' =>
          cases answer with
          | error e => simp [hempty, hquery]
          | ok scan =>
            cases hread : readScan .prune (TakeBack.note state) {} scan with
            | mk s' failure => cases failure <;> simp [hempty, hquery, hread]

variable [HonestSource σ]

/-- The stage that is committed sums up the views that were read. -/
theorem sumsUp_of_staged (hs : (scanTakeBack state start log).stage = some s) :
    TakeBack.SumsUp state (staleViews state start log) s := by
  obtain ⟨low, high, scan, hlow, hhigh, hempty, hquery, hread⟩ :=
    stage_scanTakeBack_eq_some_iff.mp hs
  have hsum := TakeBack.sumsUp_of_complete hread
  rw [HonestSource.views_of_complete hquery (readScan_eq_complete_iff.mp hread).1] at hsum
  have hok : (prune state start log).result = .ok s.tally := by
    cases hanswer : ViewSource.query log (TakeBack.range low high start) with
    | mk answer log' =>
      obtain rfl : answer = .ok scan := by rwa [hanswer] at hquery
      simp [prune, pruneBy, scanTakeBack, Scanned.commitBy, hlow, hhigh, hempty, hanswer, hread]
  simpa only [staleViews, hok, hlow, hhigh] using hsum

end Window

end Pacing
