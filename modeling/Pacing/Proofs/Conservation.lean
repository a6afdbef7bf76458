import Pacing.Proofs.ChronicleAccounts
import Pacing.Proofs.RehearsalChronicle

/-!
# Conservation of views

After an advance the counters of a window are those of a recount of the log between its watermarks:
a view counts in the buckets that its boost resolved to when the view was read, whatever has become
of the boost since, and it counts once for its boost if it resolved at all.
-/

namespace Pacing

open HonestSource (held)

namespace Chronicle

variable {σ : Type} [ViewSource σ] [HonestSource σ] {c : Chronicle σ} {start low high : Cursor}

/-- The total of a bucket is a recount of the log between the watermarks. -/
theorem total_eq_recount
    (h : Conserved c.window.state c.readings (held c.log) start low high)
    (hsize : (held c.log).length < 2 ^ 64) (b : Bucket) :
    (c.window.state.total b).toNat = (held c.log).countP fun v =>
      (low < v.cursor ∧ v.cursor ≤ high) ∧ b ∈ c.bucketsOf v := by
  have hread := h.length_le
  have hcount := countP_resolved h (fun v p => (low < v.cursor ∧ v.cursor ≤ high) ∧
    b ∈ (p.map Profile.buckets).getD []) (by simp)
  refine (h.accounts.totals (by omega) b).trans (Eq.trans ?_ hcount.symm)
  refine List.countP_congr fun r hr => ?_
  have hhigh := h.accounts.le_high r hr
  simp only [decide_eq_true_eq]
  exact ⟨fun hb => ⟨⟨hb.2, hhigh⟩, hb.1⟩, fun hb => ⟨hb.2, hb.1.1⟩⟩

/-- The views of a boost are a recount of the log between the watermarks. -/
theorem viewsOf_eq_recount
    (h : Conserved c.window.state c.readings (held c.log) start low high) (id : String) :
    c.window.state.viewsOf id = (held c.log).countP fun v =>
      (low < v.cursor ∧ v.cursor ≤ high) ∧ v.boost? = some id ∧ (c.resolution v).isSome := by
  have hcount := countP_resolved h (fun v p => (low < v.cursor ∧ v.cursor ≤ high) ∧
    v.boost? = some id ∧ p.isSome) (by simp)
  refine (h.accounts.viewsOf_eq id).trans (Eq.trans ?_ hcount.symm)
  refine List.countP_congr fun r hr => ?_
  have hhigh := h.accounts.le_high r hr
  simp only [decide_eq_true_eq]
  exact ⟨fun hb => ⟨⟨hb.2.2, hhigh⟩, hb.1, hb.2.1⟩, fun hb => ⟨hb.2.1, hb.2.2, hb.1.1⟩⟩

end Chronicle

namespace Memory.Rehearsal

/-- After an advance every total and the views of every boost are those of a recount of the log
between the watermarks, as long as views are filed past the high watermark. -/
theorem advance_recounts (seconds : Int64) (steps : List Step) (now : Int64)
    (hpast : Along step FilesPast (start seconds) steps)
    (hsize : ((start seconds).run (steps ++ [.advance now])).world.log.views.length < 2 ^ 63) :
    let r := (start seconds).run (steps ++ [.advance now])
    let c := chronicle seconds (steps ++ [.advance now])
    ∃ low high, r.window.state.low = some low ∧ r.window.state.high = some high ∧
      (∀ b, (r.window.state.total b).toNat = r.world.log.views.countP fun v =>
        (low < v.cursor ∧ v.cursor ≤ high) ∧ b ∈ c.bucketsOf v) ∧
      ∀ id, r.window.state.viewsOf id = r.world.log.views.countP fun v =>
        (low < v.cursor ∧ v.cursor ≤ high) ∧ v.boost? = some id ∧ (c.resolution v).isSome := by
  intro r c
  have hmirror : r.MirroredBy c := mirroredBy_chronicle seconds (steps ++ [.advance now])
  have hsettled : Along Chronicle.step Chronicle.Settled
      (Chronicle.start seconds (start seconds).world.log) ((start seconds).told steps) :=
    MirroredBy.along_settled ⟨rfl, rfl⟩ hpast
  have hc : c = (chronicle seconds steps).advance now
      ((start seconds).run steps).world.repository.lookup := by
    simp only [c, chronicle, told_concat, Chronicle.run, List.foldl_append, List.foldl_cons,
      List.foldl_nil, tell, Chronicle.step]
  have hordered : (chronicle seconds steps).InOrder := Chronicle.InOrder.run hsettled
  obtain ⟨first, low, high, h⟩ := hordered.advance now
    ((start seconds).run steps).world.repository.lookup
  rw [← hc] at h
  have hlogged : held c.log = r.world.log.views := congrArg Log.views hmirror.log_eq
  rw [← hmirror.window_eq, ← hlogged]
  refine ⟨low, high, h.accounts.low_eq, h.accounts.high_eq, fun b => ?_, fun id => ?_⟩
  · exact Chronicle.total_eq_recount h (by rw [hlogged]; exact Nat.lt_trans hsize (by decide)) b
  · exact Chronicle.viewsOf_eq_recount h id

/-- A boost becomes safe for all after its first view was read. -/
def reprofiled : List Step :=
  [.change (.upsert { id := "a", location := .newsfeed, safeForAll := false }),
    .change (.push [.filed ⟨1, 1⟩ "urn:boost:newsfeed:a", .filed ⟨2, 1⟩ "urn:boost:newsfeed:b"]),
    .advance 5,
    .change (.upsert { id := "a", location := .newsfeed, safeForAll := true }),
    .change (.push [.filed ⟨7, 1⟩ "urn:boost:newsfeed:a"])]

/-- Each of the two views counts in the buckets that its boost had when it was read. -/
theorem advance_recounts_reprofiled :
    let r := (start 1).run (reprofiled ++ [.advance 8])
    let c := chronicle 1 (reprofiled ++ [.advance 8])
    Along step FilesPast (start 1) reprofiled ∧ r.world.log.views.length < 2 ^ 63 ∧
      ∃ low high, r.window.state.low = some low ∧ r.window.state.high = some high ∧
        (∀ b, (r.window.state.total b).toNat = r.world.log.views.countP fun v =>
          (low < v.cursor ∧ v.cursor ≤ high) ∧ b ∈ c.bucketsOf v) ∧
        ∀ id, r.window.state.viewsOf id = r.world.log.views.countP fun v =>
          (low < v.cursor ∧ v.cursor ≤ high) ∧ v.boost? = some id ∧ (c.resolution v).isSome :=
  ⟨by decide, by decide, advance_recounts 1 reprofiled 8 (by decide) (by decide)⟩

end Memory.Rehearsal

end Pacing
