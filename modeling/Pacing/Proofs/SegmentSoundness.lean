import Pacing.Proofs.ChronicleAccounts

/-!
# Soundness of segments

While views are filed past the high watermark only, the segments of every boost lie in order between
the watermarks, each holds exactly the logged views of its boost in its span that have not expired,
and every logged view of the boost in its span was counted under its profile.
-/

namespace Pacing

open HonestSource (held)

variable {σ : Type} [ViewSource σ] [HonestSource σ]

/-- A segment of a boost agrees with the log and with what its views resolved to. -/
structure Segment.Sound (s : Segment) (id : String) (c : Chronicle σ) (low high : Cursor) :
    Prop where
  forward : s.first ≤ s.last
  below : s.last ≤ high
  past : low < s.last
  holds : 1 ≤ s.views
  views_eq : s.views = (held c.log).countP fun v =>
    v.boost? = some id ∧ s.Spans v.cursor ∧ low < v.cursor
  resolved : ∀ v ∈ held c.log, v.boost? = some id → s.Spans v.cursor →
    c.resolution v = some s.profile

namespace Conserved

variable {c : Chronicle σ} {start low high : Cursor} {id : String} {h : Holding} {s : Segment}

/-- The segments of a holding are sound for the readings of the boost. -/
theorem segmentsSound (hc : Conserved c.window.state c.readings (held c.log) start low high)
    (hheld : c.window.state.holdings[id]? = some h) :
    SegmentsSound h.segments (readingsOf c.readings id) low high := by
  have hsegments := (hc.accounts.holdings id).segments
  rwa [hheld, segmentsOf_some] at hsegments

/-- Every segment agrees with the log. -/
theorem sound (hc : Conserved c.window.state c.readings (held c.log) start low high)
    (hheld : c.window.state.holdings[id]? = some h) (hs : s ∈ h.segments) :
    s.Sound id c low high := by
  have hsegments := hc.segmentsSound hheld
  have hbelow := hsegments.below s hs
  have hpos := hsegments.held s hs
  refine ⟨hsegments.forward s hs, hbelow, ?_, hpos, ?_, fun v hv hboost hspan => ?_⟩
  · rw [hsegments.views_eq s hs, List.countP_pos_iff] at hpos
    obtain ⟨r, _, hr⟩ := hpos
    simp only [decide_eq_true_eq] at hr
    exact lt_of_lt_of_le hr.2 hr.1.2
  · rw [hsegments.views_eq s hs, readingsOf, List.countP_filter, hc.countP_logged fun v _ hv => ?_]
    · refine List.countP_congr fun r _ => ?_
      simp only [Bool.and_eq_true, decide_eq_true_eq]
      exact and_comm
    · exact ⟨lt_of_le_of_lt hc.start_le hv.2.2, le_trans hv.2.1.2 hbelow⟩
  · obtain ⟨opening, hopening, hfirst⟩ := hsegments.begins s hs
    have hstart : start < v.cursor := lt_of_lt_of_le
      (hfirst ▸ hc.start_lt (mem_readingsOf.mp hopening).1) hspan.1
    obtain ⟨r, hr, rfl⟩ := hc.mem_logged_iff.mp ⟨hv, hstart, le_trans hspan.2 hbelow⟩
    rw [Chronicle.resolution_of_mem hc.accounts.nodup_views hr]
    exact hsegments.profile_eq s hs r (mem_readingsOf.mpr ⟨hr, hboost⟩) hspan

end Conserved

namespace Chronicle

/-- After every run in which views are filed past the high watermark only, every boost that holds
views has segments, they lie in order, and each of them agrees with the log. -/
theorem segments_sound {seconds : Int64} {log : σ} {steps : List (Step σ)}
    (hsettled : Along step Settled (start seconds log) steps) {id : String} {h : Holding}
    (hheld : ((start seconds log).run steps).window.state.holdings[id]? = some h) :
    let c := (start seconds log).run steps
    ∃ low high, c.window.state.low = some low ∧ c.window.state.high = some high ∧
      h.segments ≠ [] ∧ h.segments.Pairwise (·.last < ·.first) ∧
      ∀ s ∈ h.segments, s.Sound id c low high := by
  rcases InOrder.run hsettled with ⟨hstate, _⟩ | ⟨_, low, high, hc⟩
  · simp [hstate] at hheld
  · exact ⟨low, high, hc.accounts.low_eq, hc.accounts.high_eq,
      (hc.accounts.holdings id).nonempty h hheld, (hc.segmentsSound hheld).ordered,
      fun s hs => hc.sound hheld hs⟩

/-- A boost is forgotten for one of its views and known again for the next. -/
def forgotten : List (Step Memory.Log) :=
  let views : List View := [.filed ⟨1, 1⟩ "urn:boost:newsfeed:a",
    .filed ⟨2, 1⟩ "urn:boost:newsfeed:a", .filed ⟨6, 1⟩ "urn:boost:newsfeed:a",
    .filed ⟨8, 1⟩ "urn:boost:newsfeed:a"]
  [.log (.filing (views.take 2)), .advance 5 inNewsfeed, .log (.filing (views.take 3)),
    .advance 7 fun _ => .ok none, .log (.filing views), .advance 9 inNewsfeed]

/-- The view that went uncounted keeps the two segments apart. -/
theorem segments_sound_forgotten :
    let c := (start 1 {}).run forgotten
    let h : Holding := ⟨[⟨⟨.newsfeed, false⟩, ⟨1, 1⟩, ⟨2, 1⟩, 2⟩,
      ⟨⟨.newsfeed, false⟩, ⟨8, 1⟩, ⟨8, 1⟩, 1⟩], false⟩
    Along step Settled (start 1 {}) forgotten ∧ c.window.state.holdings["a"]? = some h ∧
      ∃ low high, c.window.state.low = some low ∧ c.window.state.high = some high ∧
        h.segments ≠ [] ∧ h.segments.Pairwise (·.last < ·.first) ∧
        ∀ s ∈ h.segments, s.Sound "a" c low high :=
  ⟨by decide, by decide, segments_sound (by decide) (by decide)⟩

end Chronicle

end Pacing
