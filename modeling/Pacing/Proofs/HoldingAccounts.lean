import Pacing.Proofs.CommitSemantics
import Pacing.Proofs.SegmentAccounts

/-!
# Holdings that agree with what was read

A boost without a holding counts as one without segments. A holding has segments, they are sound,
and as long as it is not sealed no view of the boost was read behind the newest of them. That last
part is what lets a later run continue the newest segment without stretching it over a view that
went uncounted.
-/

namespace Pacing

/-- The segments of a boost, none when it has no holding. -/
def segmentsOf (held : Option Holding) : List Segment := (held.map Holding.segments).getD []

/-- A boost without a holding has no segments. -/
@[simp] theorem segmentsOf_none : segmentsOf none = [] := rfl

/-- A boost has the segments of its holding. -/
@[simp] theorem segmentsOf_some (h : Holding) : segmentsOf (some h) = h.segments := rfl

/-- What a boost holds agrees with what was read of it. -/
structure HoldingSound (held : Option Holding) (readings : List Reading) (low high : Cursor) :
    Prop where
  segments : SegmentsSound (segmentsOf held) readings low high
  nonempty : ∀ h ∈ held, h.segments ≠ []
  growable : ∀ h ∈ held, h.isSealed = false → ∀ r ∈ readings, ∃ s ∈ h.segments, r.cursor ≤ s.last

/-- A run joins the newest segment, or follows it. -/
theorem Holding.append_concat (front : List Segment) (newest run : Segment) (isSealed : Bool) :
    (⟨front ++ [newest], isSealed⟩ : Holding).append run =
      if isSealed = false ∧ newest.profile = run.profile then ⟨front ++ [newest.join run], false⟩
      else ⟨front ++ [newest] ++ [run], false⟩ := by
  simp [append]

/-- Segments in order with sound counts can be told apart by where they begin. -/
theorem SegmentsSound.distinct {segments : List Segment} {readings : List Reading}
    {low high : Cursor} (h : SegmentsSound segments readings low high) :
    Holding.Distinct segments where
  first_ne := by
    refine h.ordered.imp_of_mem fun {s t} hs _ hst he => ?_
    exact lt_irrefl _ (lt_of_le_of_lt (h.forward s hs) (he ▸ hst))
  held := h.held

namespace HoldingSound

variable {held : Option Holding} {readings fresh : List Reading} {low low' high high' : Cursor}
  {run : Segment} {p : Profile}

/-- A boost of which nothing was read since stays as it is. -/
theorem raise (h : HoldingSound held readings low high) (hhigh : high ≤ high') :
    HoldingSound held readings low high' where
  segments := by
    have hidle := h.segments.idle (List.forall_mem_nil _) (List.forall_mem_nil _) hhigh
    rwa [List.append_nil] at hidle
  nonempty := h.nonempty
  growable := h.growable

/-- A boost of which views went uncounted is sealed. -/
theorem sealOff (h : HoldingSound held readings low high) (hpast : ∀ r ∈ fresh, high < r.cursor)
    (hmissed : ∀ r ∈ fresh, r.profile = none) (hhigh : high ≤ high') :
    HoldingSound (held.map Holding.sealOff) (readings ++ fresh) low high' where
  segments := by
    rw [show segmentsOf (held.map Holding.sealOff) = segmentsOf held by cases held <;> rfl]
    exact h.segments.idle hpast hmissed hhigh
  nonempty := by
    intro g hg
    obtain ⟨h', hh', rfl⟩ := Option.map_eq_some_iff.mp hg
    exact h.nonempty h' hh'
  growable := by
    intro g hg hsealed
    obtain ⟨h', _, rfl⟩ := Option.map_eq_some_iff.mp hg
    simp [Holding.sealOff] at hsealed

/-- A boost of which a run was counted holds that run too. -/
theorem append (h : HoldingSound held readings low high)
    (hrun : SegmentsSound.RunOf run p fresh high high') (hold : ∀ r ∈ readings, r.cursor ≤ high)
    (hlow : low ≤ high) :
    HoldingSound (some ((held.getD {}).append run)) (readings ++ fresh) low high' := by
  have hpush : HoldingSound (some ⟨segmentsOf held ++ [run], false⟩) (readings ++ fresh) low
      high' := by
    refine ⟨h.segments.push hrun hold hlow, by simp, fun g hg _ r hr => ?_⟩
    cases hg
    refine ⟨run, by simp, ?_⟩
    rcases List.mem_append.mp hr with hr | hr
    · exact le_trans (hold r hr)
        (le_of_lt (lt_of_lt_of_le hrun.past hrun.forward))
    · exact (hrun.spans r hr).2
  cases held with
  | none => exact hpush
  | some g =>
    obtain ⟨segments, isSealed⟩ := g
    obtain ⟨front, newest, rfl⟩ := List.eq_nil_or_concat' segments |>.resolve_left
      (h.nonempty _ rfl)
    simp only [Option.getD_some, Holding.append_concat]
    split
    · rename_i hjoin
      obtain ⟨hopen, hprofile⟩ := hjoin
      have hbehind : ∀ r ∈ readings, r.cursor ≤ newest.last := by
        intro r hr
        obtain ⟨s, hs, hle⟩ := h.growable _ rfl hopen r hr
        exact le_trans hle (h.segments.last_le_newest hs)
      refine ⟨h.segments.join hrun hbehind (hprofile.trans hrun.profile_eq) hlow, by simp,
        fun g hg _ r hr => ?_⟩
      cases hg
      refine ⟨newest.join run, by simp, ?_⟩
      rcases List.mem_append.mp hr with hr | hr
      · exact le_trans (hold r hr)
          (le_of_lt (lt_of_lt_of_le hrun.past hrun.forward))
      · exact (hrun.spans r hr).2
    · exact hpush

/-- A boost of which expired views were taken back holds the others. -/
theorem cut {h : Holding} (hsound : HoldingSound (some h) readings low high) (hlow : low ≤ low')
    {removed : Cursor → Nat}
    (hremoved : SegmentsSound.Removes removed h.segments readings low low') :
    HoldingSound (Holding.ofSegments? (h.segments.filterMap (Segment.cut? removed)) h.isSealed)
      readings low' high := by
  have hcut := hsound.segments.cut hlow hremoved
  unfold Holding.ofSegments?
  split
  · rename_i hnil
    rw [segmentsOf_some, hnil] at hcut
    exact ⟨hcut, by simp, by simp⟩
  · rename_i hleft
    refine ⟨hcut, fun g hg => ?_, fun g hg hopen r hr => ?_⟩
    · cases hg
      exact hleft
    · cases hg
      obtain ⟨front, newest, hsegments⟩ := List.eq_nil_or_concat' h.segments |>.resolve_left
        (hsound.nonempty _ rfl)
      have hsegs := hsound.segments
      rw [segmentsOf_some] at hsegs
      obtain ⟨s, hs, hle⟩ := hsound.growable _ rfl hopen r hr
      rw [hsegments] at hsegs hremoved hleft hs
      obtain ⟨t, ht⟩ := hsegs.cut_newest hlow hremoved hleft
      obtain ⟨_, hnewest⟩ := Segment.cut?_eq_some_iff.mp ht
      have hlast : t.last = newest.last := by rw [hnewest]
      refine ⟨t, ?_, ?_⟩
      · rw [hsegments]
        exact List.mem_filterMap.mpr ⟨newest, by simp, ht⟩
      · rw [hlast]
        exact le_trans hle (hsegs.last_le_newest hs)

end HoldingSound

end Pacing
