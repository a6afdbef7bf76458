import Pacing.Proofs.KeyedFolds
import Pacing.Proofs.CursorOrder
import Pacing.Proofs.Runs
import Pacing.Snapshot

/-!
# Rebuilding a window from a snapshot

A snapshot leaves out totals that are zero, drops segments without views and refuses what
contradicts itself. This file says once which snapshots are accepted and what is rebuilt from them.
A state in which none of that can be found is rebuilt with the same watermarks, the same holdings
and the same total of every bucket.
-/

namespace Pacing

namespace WindowState

/-- Neither the watermarks nor a segment run backwards, and nothing is kept that holds no views. -/
structure Tidy (state : WindowState) : Prop where
  watermarks : (state.low = none ∧ state.high = none) ∨
    ∃ low high, state.low = some low ∧ state.high = some high ∧ low ≤ high
  nonempty : ∀ id : String, ∀ h ∈ state.holdings[id]?, h.segments ≠ []
  held : ∀ id : String, ∀ h ∈ state.holdings[id]?, ∀ s ∈ h.segments, 0 < s.views
  forward : ∀ id : String, ∀ h ∈ state.holdings[id]?, ∀ s ∈ h.segments, s.first ≤ s.last

/-- Two states that nobody can tell apart: the entries of their totals may differ by zeros. -/
structure Agrees (state state' : WindowState) : Prop where
  low_eq : state'.low = state.low
  high_eq : state'.high = state.high
  holdings_eq : state'.holdings = state.holdings
  total_eq (b : Bucket) : state'.total b = state.total b

/-- What holds of all holdings holds of those that a state lists. -/
theorem forall_holding_iff {state : WindowState} {P : Holding → Prop} :
    (∀ id : String, ∀ h ∈ state.holdings[id]?, P h) ↔ ∀ e ∈ state.holdings.toList, P e.2 := by
  constructor
  · exact fun h e he => h e.1 e.2 (Std.ExtTreeMap.mem_toList_iff_getElem?_eq_some.mp he)
  · exact fun h id g hg => h (id, g) (Std.ExtTreeMap.mem_toList_iff_getElem?_eq_some.mpr hg)

/-- The state without the totals that are zero. -/
def withoutZeros (state : WindowState) : WindowState :=
  { state with totals := state.totals.filter fun _ n => 0 < n }

/-- Leaving out totals that are zero changes no total. -/
theorem agrees_withoutZeros (state : WindowState) : state.Agrees state.withoutZeros where
  low_eq := rfl
  high_eq := rfl
  holdings_eq := rfl
  total_eq b := by
    unfold total withoutZeros
    rw [Std.ExtTreeMap.getD_filter', Std.ExtTreeMap.getD_eq_getD_getElem?]
    cases state.totals[b]? with
    | none => rfl
    | some n =>
      rw [Option.filter_some]
      by_cases hn : 0 < n
      · simp [hn]
      · have hzero : n = 0 := by
          simpa using hn
        simp [hzero]

end WindowState

namespace Snapshot

variable {snapshot : Snapshot} {state : WindowState} {table table' : Std.ExtTreeMap String Holding}

/-! ## What is rebuilt -/

/-- What is kept of the entry of a boost: its segments with views, if there are any. -/
def keep? (e : String × Holding) : Option (String × Holding) :=
  let segments := e.2.segments.filter (0 < ·.views)
  if segments = [] then none else some (e.1, { e.2 with segments })

/-- The entries of boosts with views, without the segments that have none. -/
def kept (snapshot : Snapshot) : List (String × Holding) := snapshot.holdings.filterMap keep?

/-- An entry is kept as it is if each of its segments holds views. -/
theorem keep?_eq_self {e : String × Holding} (hnonempty : e.2.segments ≠ [])
    (hheld : ∀ s ∈ e.2.segments, 0 < s.views) : keep? e = some e := by
  have hfilter : e.2.segments.filter (0 < ·.views) = e.2.segments :=
    List.filter_eq_self.mpr fun s hs => decide_eq_true (hheld s hs)
  simp only [keep?, hfilter, if_neg hnonempty]

/-- What is kept has segments, and each of them holds views. -/
theorem held_of_mem_kept {e : String × Holding} (he : e ∈ snapshot.kept) :
    e.2.segments ≠ [] ∧ ∀ s ∈ e.2.segments, 0 < s.views := by
  obtain ⟨whole, -, hkeep⟩ := List.mem_filterMap.mp he
  unfold keep? at hkeep
  dsimp only at hkeep
  split at hkeep
  · cases hkeep
  · rename_i hleft
    cases hkeep
    exact ⟨hleft, fun s hs => of_decide_eq_true (List.mem_filter.mp hs).2⟩

/-- The watermarks of a snapshot pass if they are both absent or in order. -/
theorem checkWatermarks_eq_ok_iff {u : Unit} : snapshot.checkWatermarks = .ok u ↔
    (snapshot.low = none ∧ snapshot.high = none) ∨
      ∃ low high, snapshot.low = some low ∧ snapshot.high = some high ∧ low ≤ high := by
  unfold checkWatermarks
  cases snapshot.low <;> cases snapshot.high <;> simp [not_lt]

/-- What is kept of an entry is added if none of its segments runs backwards. -/
theorem addHolding_eq_ok_iff {e : String × Holding} :
    addHolding table e = .ok table' ↔
      (∀ f ∈ keep? e, ∀ g ∈ f.2.segments, g.first ≤ g.last) ∧
        table' = (keep? e).elim table fun f => table.insert f.1 f.2 := by
  obtain ⟨id, h⟩ := e
  simp only [addHolding, keep?]
  generalize h.segments.filter (0 < ·.views) = segments
  have hforward : segments.any (fun g => g.last < g.first) = false ↔
      ∀ g ∈ segments, g.first ≤ g.last := by
    simp [not_lt]
  by_cases hany : segments.any (fun g => g.last < g.first) = true
  · have hbackwards := hforward.not.mp (by simp [hany])
    have hne : segments ≠ [] := by
      rintro rfl
      cases hany
    simp [hany, hne, hbackwards]
  · have hforward := hforward.mp (Bool.eq_false_iff.mpr hany)
    rw [if_neg hany]
    by_cases hnil : segments = []
    · simp [hnil, eq_comm]
    · have hkept : ∀ f ∈ some (id, { h with segments }), ∀ g ∈ f.2.segments, g.first ≤ g.last := by
        rintro _ ⟨⟩
        exact hforward
      rw [if_neg (by simpa using hnil), if_neg hnil, and_iff_right hkept, Except.ok.injEq]
      exact eq_comm

/-- What is kept of all entries is added if none of their segments runs backwards. -/
theorem foldlM_addHolding_eq_ok_iff {entries : List (String × Holding)} :
    entries.foldlM addHolding table = .ok table' ↔
      (∀ e ∈ entries.filterMap keep?, ∀ g ∈ e.2.segments, g.first ≤ g.last) ∧
        table' = (entries.filterMap keep?).foldl (fun t e => t.insert e.1 e.2) table := by
  induction entries generalizing table with
  | nil => simp [pure, Except.pure, eq_comm]
  | cons e rest ih =>
    simp only [foldlM_cons_eq_ok_iff, addHolding_eq_ok_iff, ih]
    cases hkeep : keep? e with
    | none => simp [List.filterMap_cons_none hkeep]
    | some f =>
      rw [List.filterMap_cons_some hkeep, List.forall_mem_cons]
      simp [and_assoc]

/-- An accepted snapshot is rebuilt entry by entry. -/
theorem toState_eq_ok_iff : snapshot.toState = .ok state ↔
    ((snapshot.low = none ∧ snapshot.high = none) ∨
      ∃ low high, snapshot.low = some low ∧ snapshot.high = some high ∧ low ≤ high) ∧
    (∀ e ∈ snapshot.kept, ∀ g ∈ e.2.segments, g.first ≤ g.last) ∧
      state =
        { totals := snapshot.totals.foldl (fun t e => t.insert e.1 e.2) ∅
          holdings := snapshot.kept.foldl (fun t e => t.insert e.1 e.2) ∅
          low := snapshot.low
          high := snapshot.high } := by
  simp only [toState, bind_eq_ok_iff, checkWatermarks_eq_ok_iff, foldlM_addHolding_eq_ok_iff]
  simp [kept, pure, Except.pure, eq_comm]

/-- A rebuilt state holds of a boost what its latest entry says. -/
theorem holding_of_toState (haccepted : snapshot.toState = .ok state) {id : String} {h : Holding} :
    state.holdings[id]? = some h ↔ (id, h) ∈ latest snapshot.kept := by
  obtain ⟨-, -, rfl⟩ := toState_eq_ok_iff.mp haccepted
  simp [getElem?_foldl_insert_iff]

/-- A rebuilt state has in a bucket what its latest entry says. -/
theorem total_of_toState (haccepted : snapshot.toState = .ok state) {b : Bucket} {n : UInt64} :
    state.totals[b]? = some n ↔ (b, n) ∈ latest snapshot.totals := by
  obtain ⟨-, -, rfl⟩ := toState_eq_ok_iff.mp haccepted
  simp [getElem?_foldl_insert_iff]

/-- A rebuilt state has the high watermark of its snapshot. -/
theorem high_of_toState (haccepted : snapshot.toState = .ok state) : state.high = snapshot.high := by
  obtain ⟨-, -, rfl⟩ := toState_eq_ok_iff.mp haccepted
  rfl

/-- What a rebuilt state holds of a boost has segments. Each of them holds views, and none runs
backwards. -/
theorem held_of_toState (haccepted : snapshot.toState = .ok state) {id : String} {h : Holding}
    (hheld : state.holdings[id]? = some h) :
    h.segments ≠ [] ∧ ∀ s ∈ h.segments, 0 < s.views ∧ s.first ≤ s.last := by
  have hmem := latest_subset _ ((holding_of_toState haccepted).mp hheld)
  obtain ⟨hnonempty, hviews⟩ := held_of_mem_kept hmem
  obtain ⟨-, hforward, -⟩ := toState_eq_ok_iff.mp haccepted
  exact ⟨hnonempty, fun s hs => ⟨hviews s hs, hforward _ hmem s hs⟩⟩

/-! ## What is captured -/

/-- A state is captured like one without the totals that are zero. -/
theorem capture_withoutZeros (state : WindowState) (seconds savedAt : Int64) :
    capture state.withoutZeros seconds savedAt = capture state seconds savedAt := by
  simp [capture, WindowState.withoutZeros, Std.ExtTreeMap.toList_filter]

/-- A window that has not begun is rebuilt as one that has not begun. -/
theorem toState_capture_empty (seconds savedAt : Int64) :
    (capture {} seconds savedAt).toState = .ok {} := by
  simp [capture, toState, checkWatermarks]

/-- All that a tidy state holds is kept when it is captured. -/
theorem kept_capture (h : state.Tidy) (seconds savedAt : Int64) :
    (capture state seconds savedAt).kept = state.holdings.toList := by
  have hnonempty := WindowState.forall_holding_iff.mp h.nonempty
  have hheld := WindowState.forall_holding_iff.mp h.held
  refine (List.filterMap_congr fun e he => ?_).trans List.filterMap_some
  exact keep?_eq_self (hnonempty e he) (hheld e he)

/-- A tidy state is rebuilt from its snapshot as it is, but for totals that are zero. -/
theorem toState_capture_eq (h : state.Tidy) (seconds savedAt : Int64) :
    (capture state seconds savedAt).toState = .ok state.withoutZeros := by
  have htotals : (capture state seconds savedAt).totals = state.withoutZeros.totals.toList :=
    (Std.ExtTreeMap.toList_filter (f := fun _ n => decide (0 < n))).symm
  rw [toState_eq_ok_iff, kept_capture h, htotals, foldl_insert_toList, foldl_insert_toList]
  exact ⟨h.watermarks, WindowState.forall_holding_iff.mp h.forward, rfl⟩

/-- A tidy state is rebuilt from its snapshot. -/
theorem toState_capture (h : state.Tidy) (seconds savedAt : Int64) :
    ∃ restored, (capture state seconds savedAt).toState = .ok restored ∧
      state.Agrees restored :=
  ⟨_, toState_capture_eq h seconds savedAt, state.agrees_withoutZeros⟩

end Snapshot

end Pacing
