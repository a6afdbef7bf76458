import Pacing.Proofs.IntakeSemantics
import Pacing.Proofs.TakeBackSemantics

/-!
# What a commit does to each bucket and each boost

A commit folds a whole stage into the window. Seen from one bucket it is one addition or one
subtraction, and seen from one boost it is one change of its holding.
-/

namespace Pacing.WindowState

variable (state : WindowState)

/-! ## Committing an intake -/

/-- An intake does not move the low watermark. -/
@[simp] theorem low_commitIntake (s : Intake) : (state.commitIntake s).low = state.low := rfl

/-- An intake moves the high watermark to the last view that it read. -/
@[simp] theorem high_commitIntake (s : Intake) :
    (state.commitIntake s).high = (s.tally.last <|> state.high) := rfl

/-- An intake adds to a bucket what it gained. -/
theorem total_commitIntake (s : Intake) (b : Bucket) :
    (state.commitIntake s).total b = state.total b + UInt64.ofNat (s.gained.getD b 0) := by
  have hfold := getD_foldl_insert (fun (x : UInt64) (n : Nat) => x + UInt64.ofNat n) 0
    s.gained.toList state.totals b
  rw [filter_toList] at hfold
  rw [Std.ExtTreeMap.getD_eq_getD_getElem? (t := s.gained)]
  refine hfold.trans ?_
  cases s.gained[b]? <;> simp [total]

/-- An intake seals the holding of a boost that it missed, and adds the run of one that it
counted. -/
theorem holding_commitIntake (s : Intake) (id : String) :
    (state.commitIntake s).holdings[id]? =
      let held := if id ∈ s.missed then state.holdings[id]?.map Holding.sealOff
        else state.holdings[id]?
      match s.runs[id]? with
      | none => held
      | some run => some ((held.getD {}).append run) := by
  have hseal := getElem?_foldl_modify (f := Holding.sealOff) (fun _ => rfl) s.missed
    state.holdings id
  have happend := getElem?_foldl_alter (Prod.fst : String × Segment → String)
    (fun r h => some ((h.getD {}).append r.2)) s.runs.toList
    (s.missed.foldl (fun t i => t.modify i Holding.sealOff) state.holdings) id
  rw [filter_toList, hseal] at happend
  refine happend.trans ?_
  cases s.runs[id]? <;> rfl

/-- What sealing keeps of a holding and what a run makes of it holds of all holdings after an
intake. -/
theorem forall_holding_commitIntake {P Q : Holding → Prop} {s : Intake} {id : String}
    (hkeep : ∀ g, P g → Q g) (hseal : ∀ g, P g → P g.sealOff)
    (happend : ∀ run, s.runs[id]? = some run → ∀ held : Option Holding, (∀ g ∈ held, P g) →
      Q ((held.getD {}).append run)) (h : ∀ g ∈ state.holdings[id]?, P g) :
    ∀ g ∈ (state.commitIntake s).holdings[id]?, Q g := by
  have hheld : ∀ g ∈ (if id ∈ s.missed then state.holdings[id]?.map Holding.sealOff
      else state.holdings[id]?), P g := by
    intro g hg
    split at hg
    · obtain ⟨g', hg', rfl⟩ := Option.map_eq_some_iff.mp hg
      exact hseal g' (h g' hg')
    · exact h g hg
  intro g hg
  rw [holding_commitIntake] at hg
  cases hruns : s.runs[id]? with
  | none =>
    rw [hruns] at hg
    exact hkeep g (hheld g hg)
  | some run =>
    rw [hruns] at hg
    cases hg
    exact happend run hruns _ hheld

/-! ## Committing a take-back -/

/-- A take-back does not move the high watermark. -/
@[simp] theorem high_commitTakeBack (s : TakeBack) : (state.commitTakeBack s).high = state.high :=
  rfl

/-- A take-back moves the low watermark to the last view that it read. -/
@[simp] theorem low_commitTakeBack (s : TakeBack) :
    (state.commitTakeBack s).low = (s.tally.last <|> state.low) := rfl

/-- A take-back folds the losses of a bucket into its total. -/
theorem total_subtractTotals (lost : List (Bucket × Nat)) (b : Bucket) :
    (state.subtractTotals lost).total b = (lost.filter (·.1 = b)).foldl
      (fun total e => UInt64.ofNat (total.toNat - e.2)) (state.total b) :=
  getD_foldl_insert (fun (x : UInt64) (n : Nat) => UInt64.ofNat (x.toNat - n)) 0 lost state.totals b

/-- A take-back takes from a bucket what it lost. -/
theorem total_commitTakeBack (s : TakeBack) (b : Bucket) :
    (state.commitTakeBack s).total b =
      UInt64.ofNat ((state.total b).toNat - s.lost.getD b 0) := by
  have hfold := state.total_subtractTotals s.lost.toList b
  rw [filter_toList] at hfold
  rw [Std.ExtTreeMap.getD_eq_getD_getElem? (t := s.lost)]
  refine hfold.trans ?_
  cases s.lost[b]? <;> simp

/-- A take-back folds the removals of a boost into its holding. -/
theorem holding_takeBackAll (removed : List (SegmentStart × Nat)) (id : String) :
    (state.takeBackAll removed).holdings[id]? =
      (removed.filter (·.1.boost = id)).foldl
        (fun held r => held.bind (·.takeBack? r.1.first r.2)) state.holdings[id]? :=
  getElem?_foldl_alter (fun r : SegmentStart × Nat => r.1.boost)
    (fun r (held : Option Holding) => held.bind (·.takeBack? r.1.first r.2)) removed
    state.holdings id

/-- What a take-back does to the holding of a boost is to take the removals of that boost one after
the other. -/
theorem holding_commitTakeBack (s : TakeBack) (id : String) :
    (state.commitTakeBack s).holdings[id]? =
      (s.removed.toList.filter (·.1.boost = id)).foldl
        (fun held r => held.bind (·.takeBack? r.1.first r.2)) state.holdings[id]? :=
  holding_takeBackAll (state.subtractTotals s.lost.toList) s.removed.toList id

/-- What every single taking back keeps of a holding, a whole take-back keeps. -/
theorem forall_holding_commitTakeBack {P : Holding → Prop}
    (htake : ∀ g g' start n, P g → g.takeBack? start n = some g' → P g') (s : TakeBack)
    {id : String} (h : ∀ g ∈ state.holdings[id]?, P g) :
    ∀ g ∈ (state.commitTakeBack s).holdings[id]?, P g := by
  rw [holding_commitTakeBack]
  revert h
  generalize state.holdings[id]? = held
  induction s.removed.toList.filter (·.1.boost = id) generalizing held with
  | nil => exact fun h => h
  | cons r rest ih =>
    intro h
    refine ih (held.bind (·.takeBack? r.1.first r.2)) fun g' hg' => ?_
    obtain ⟨g, hg, htaken⟩ := Option.bind_eq_some_iff.mp hg'
    exact htake g g' _ _ (h g hg) htaken

/-- A take-back leaves a boost without views as it is. -/
theorem holding_commitTakeBack_of_none (s : TakeBack) {id : String}
    (hnone : state.holdings[id]? = none) : (state.commitTakeBack s).holdings[id]? = none := by
  rw [holding_commitTakeBack, hnone]
  induction s.removed.toList.filter (·.1.boost = id) with
  | nil => rfl
  | cons r rest ih => exact ih

/-- The removals from one start of a boost are those of that key. -/
theorem filter_boost_filter_first (removed : List (SegmentStart × Nat)) (id : String)
    (first : Cursor) : (removed.filter (·.1.boost = id)).filter (·.1.first = first) =
      removed.filter (·.1 = ⟨id, first⟩) := by
  rw [List.filter_filter]
  refine List.filter_congr fun r _ => ?_
  obtain ⟨⟨boost, c⟩, n⟩ := r
  simp [SegmentStart.mk.injEq, Bool.and_comm]

/-- A take-back cuts each segment of a boost by what is removed from its start. -/
theorem holding_commitTakeBack_of_some (s : TakeBack) {id : String} {h : Holding}
    (hsome : state.holdings[id]? = some h) (hne : h.segments ≠ [])
    (hdistinct : Holding.Distinct h.segments) :
    (state.commitTakeBack s).holdings[id]? =
      Holding.ofSegments? (h.segments.filterMap (Segment.cut? fun c => s.removed.getD ⟨id, c⟩ 0))
        h.isSealed := by
  have hheld : state.holdings[id]? = Holding.ofSegments? h.segments h.isSealed := by
    rw [Holding.ofSegments?, if_neg hne]
    exact hsome
  rw [holding_commitTakeBack, hheld, Holding.foldl_takeBack? hdistinct]
  congr 2
  funext segment
  congr 1
  funext c
  rw [filter_boost_filter_first, filter_toList, Std.ExtTreeMap.getD_eq_getD_getElem?]
  cases s.removed[(⟨id, c⟩ : SegmentStart)]? <;> simp

end Pacing.WindowState
