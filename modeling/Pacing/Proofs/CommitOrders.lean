import Mathlib
import Pacing.Proofs.CommitSemantics
import Pacing.Window

/-!
# Commits in any order

A commit folds what a scan has staged into the window, entry by entry. The staged tables do not say
in which order. Entries for different buckets and runs of different boosts do not meet. Several
removals may come from one boost, and one of them may leave the boost without segments; still each
looks for its own start, and no removal changes where the other segments begin, so any two of them
can change places. This needs nothing of the window: segments may overlap or begin at one cursor,
and more may be removed than there is.
-/

namespace Pacing

/-! ## Removals that change places -/

namespace Holding

variable {start start' : Cursor}

/-- Taking views from different starts in one order leaves the segments that the other order
leaves. -/
theorem reduce_comm (h : start ≠ start') (n n' : Nat) (segments : List Segment) :
    reduce start n (reduce start' n' segments) = reduce start' n' (reduce start n segments) := by
  induction segments with
  | nil => rfl
  | cons s rest ih =>
    by_cases hs : s.first = start
    · have hs' : s.first ≠ start' := fun he => h (hs.symm.trans he)
      simp only [reduce, if_pos hs, if_neg hs']
      split
      · rfl
      · simp [reduce, hs']
    · by_cases hs' : s.first = start'
      · simp only [reduce, if_neg hs, if_pos hs']
        split
        · rfl
        · simp [reduce, hs]
      · simp [reduce, hs, hs', ih]

/-- Taking views back leaves a holding of the segments that are left, sealed if it was. -/
theorem takeBack?_eq (h : Holding) (start : Cursor) (n : Nat) :
    h.takeBack? start n = ofSegments? (reduce start n h.segments) h.isSealed := by
  unfold takeBack? ofSegments?
  split <;> simp_all

/-- Taking views from different starts in one order leaves the holding that the other order leaves,
or none in both when a segment that goes away is the only one. -/
theorem takeBack?_comm (h : start ≠ start') (n n' : Nat) (held : Option Holding) :
    (held.bind (·.takeBack? start n)).bind (·.takeBack? start' n') =
      (held.bind (·.takeBack? start' n')).bind (·.takeBack? start n) := by
  cases held with
  | none => rfl
  | some g =>
    simp only [Option.bind_some, takeBack?_eq g, ofSegments?_bind_takeBack?]
    rw [reduce_comm h]

end Holding

/-! ## Staged entries in an order -/

/-- The entries of an intake in an order in which they are met. -/
structure Intake.Order (s : Intake) where
  /-- The views gained by each bucket. -/
  gained : List (Bucket × Nat)
  /-- The boosts with views that could not be counted. -/
  missed : List String
  /-- The run of views of each boost that is counted. -/
  runs : List (String × Segment)
  gained_perm : gained.Perm s.gained.toList
  missed_perm : missed.Perm s.missed
  runs_perm : runs.Perm s.runs.toList

/-- The entries of a take-back in an order in which they are met. -/
structure TakeBack.Order (s : TakeBack) where
  /-- The views lost by each bucket. -/
  lost : List (Bucket × Nat)
  /-- The views to take from each segment. -/
  removed : List (SegmentStart × Nat)
  lost_perm : lost.Perm s.lost.toList
  removed_perm : removed.Perm s.removed.toList

namespace WindowState

variable (state : WindowState)

/-- Puts a complete intake into the window, with its entries in a given order. -/
def commitIntakeIn (s : Intake) (order : s.Order) : WindowState :=
  let state := state.addTotals order.gained
  let state := state.sealAll order.missed
  let state := state.appendAll order.runs
  { state with high := s.tally.last <|> state.high }

/-- Puts a complete take-back into the window, with its entries in a given order. -/
def commitTakeBackIn (s : TakeBack) (order : s.Order) : WindowState :=
  let state := state.subtractTotals order.lost
  let state := state.takeBackAll order.removed
  { state with low := s.tally.last <|> state.low }

/-! ## Each collection in any order -/

variable {state}

/-- Gains of different buckets can be added in any order. -/
theorem addTotals_of_perm {gained : List (Bucket × Nat)} {table : Std.ExtTreeMap Bucket Nat}
    (h : gained.Perm table.toList) : state.addTotals gained = state.addTotals table.toList :=
  congrArg (fun totals => { state with totals }) (foldl_combine_of_perm
    (fun (x : UInt64) (n : Nat) => x + UInt64.ofNat n) 0 h state.totals)

/-- Losses of different buckets can be taken in any order, also where a total would fall below
zero. -/
theorem subtractTotals_of_perm {lost : List (Bucket × Nat)} {table : Std.ExtTreeMap Bucket Nat}
    (h : lost.Perm table.toList) :
    state.subtractTotals lost = state.subtractTotals table.toList :=
  congrArg (fun totals => { state with totals }) (foldl_combine_of_perm
    (fun (x : UInt64) (n : Nat) => UInt64.ofNat (x.toNat - n)) 0 h state.totals)

/-- Holdings that are the same for every boost make the same state. -/
theorem holdings_congr {table table' : Std.ExtTreeMap String Holding}
    (h : ∀ id : String, table[id]? = table'[id]?) :
    ({ state with holdings := table } : WindowState) = { state with holdings := table' } :=
  congrArg (fun holdings => { state with holdings })
    (Std.ExtTreeMap.ext_getElem? fun {id} => h id)

/-- Which holdings are sealed depends on which boosts were missed. -/
theorem sealAll_of_perm {ids ids' : List String} (h : ids.Perm ids') :
    state.sealAll ids = state.sealAll ids' := by
  refine holdings_congr fun id => ?_
  have hfold (ids : List String) := getElem?_foldl_modify (f := Holding.sealOff) (fun _ => rfl) ids
    state.holdings id
  simp only [hfold, h.mem_iff]

/-- There is one run of each boost, so no two of them meet. -/
theorem appendAll_of_perm {runs : List (String × Segment)} {table : Std.ExtTreeMap String Segment}
    (h : runs.Perm table.toList) : state.appendAll runs = state.appendAll table.toList := by
  refine holdings_congr fun id => ?_
  have hfold (runs : List (String × Segment)) := getElem?_foldl_alter
    (Prod.fst : String × Segment → String) (fun r held => some ((held.getD {}).append r.2)) runs
    state.holdings id
  exact (hfold runs).trans ((congrArg _ (filter_of_perm h id)).trans (hfold table.toList).symm)

/-- Removals from one boost are from different starts, so any two of them can change places. -/
theorem takeBackAll_of_perm {removed : List (SegmentStart × Nat)}
    {table : Std.ExtTreeMap SegmentStart Nat} (h : removed.Perm table.toList) :
    state.takeBackAll removed = state.takeBackAll table.toList := by
  refine holdings_congr fun id => ?_
  refine (state.holding_takeBackAll removed id).trans
    (Eq.trans ?_ (state.holding_takeBackAll table.toList id).symm)
  refine (h.filter _).foldl_eq' (fun r hr r' hr' held => ?_) _
  obtain ⟨⟨boost, first⟩, n⟩ := r
  obtain ⟨⟨boost', first'⟩, n'⟩ := r'
  simp only [List.mem_filter, decide_eq_true_eq, h.mem_iff,
    Std.ExtTreeMap.mem_toList_iff_getElem?_eq_some] at hr hr'
  obtain ⟨hn, rfl⟩ := hr
  obtain ⟨hn', rfl⟩ := hr'
  by_cases hfirst : first = first'
  · subst hfirst
    obtain rfl : n = n' := Option.some.inj (hn.symm.trans hn')
    rfl
  · exact Holding.takeBack?_comm hfirst n n' held

variable (state)

/-- An intake leaves the same state in whatever order its entries are met. -/
theorem commitIntakeIn_eq (s : Intake) (order : s.Order) :
    state.commitIntakeIn s order = state.commitIntake s := by
  rw [commitIntakeIn, addTotals_of_perm order.gained_perm, sealAll_of_perm order.missed_perm,
    appendAll_of_perm order.runs_perm, commitIntake]

/-- A take-back leaves the same state in whatever order its entries are met. -/
theorem commitTakeBackIn_eq (s : TakeBack) (order : s.Order) :
    state.commitTakeBackIn s order = state.commitTakeBack s := by
  rw [commitTakeBackIn, subtractTotals_of_perm order.lost_perm,
    takeBackAll_of_perm order.removed_perm, commitTakeBack]

end WindowState

/-! ## Windows that commit in any order -/

/-- The order in which each intake and each take-back is met when it is committed. -/
structure Window.Orders where
  /-- The order of the entries of an intake. -/
  intake : (s : Intake) → s.Order
  /-- The order of the entries of a take-back. -/
  takeBack : (s : TakeBack) → s.Order

namespace Window

variable {σ : Type} [ViewSource σ]

/-- The commits that meet the entries of each stage in the given orders. -/
def Orders.commits (orders : Orders) : Commits where
  intake state s := state.commitIntakeIn s (orders.intake s)
  takeBack state s := state.commitTakeBackIn s (orders.takeBack s)

/-- Moves the window to a time, with the entries of each stage in a given order. -/
def advanceIn (w : Window) (orders : Orders) (now : Int64) (log : σ) (lookup : Lookup) :
    Advance σ :=
  w.advanceBy orders.commits now log lookup

/-- Commits in given orders are the commits of the window itself. -/
theorem Orders.commits_eq (orders : Orders) : orders.commits = {} := by
  simp only [commits, WindowState.commitIntakeIn_eq, WindowState.commitTakeBackIn_eq]

/-- An advance that commits in a given order is an advance. -/
theorem advanceIn_eq (w : Window) (orders : Orders) (now : Int64) (log : σ) (lookup : Lookup) :
    w.advanceIn orders now log lookup = w.advance now log lookup := by
  rw [advanceIn, orders.commits_eq, advance]

/-- An advance of a window: the length of the window from then on, the time that it is moved to, the
log and the repository that it meets there, and the orders in which it commits. -/
structure Turn (σ : Type) where
  /-- The length in seconds. -/
  seconds : Int64
  /-- The time. -/
  now : Int64
  /-- The log of views. -/
  log : σ
  /-- The answers of the repository. -/
  lookup : Lookup
  /-- The orders of the commits. -/
  orders : Orders

end Window

namespace WindowState

variable {σ : Type} [ViewSource σ]

/-- The state after an advance that commits in the orders of the turn. -/
def turnIn (state : WindowState) (t : Window.Turn σ) : WindowState :=
  (Window.advanceIn { seconds := t.seconds, state } t.orders t.now t.log t.lookup).window.state

/-- The state after an advance, whatever the orders of the turn. -/
def turn (state : WindowState) (t : Window.Turn σ) : WindowState :=
  (Window.advance { seconds := t.seconds, state } t.now t.log t.lookup).window.state

/-- A turn leaves the state that it leaves when its orders are forgotten. -/
theorem turnIn_eq (state : WindowState) (t : Window.Turn σ) : state.turnIn t = state.turn t := by
  rw [turnIn, Window.advanceIn_eq, turn]

/-- However the orders of the turns are chosen, the turns leave the same state. -/
theorem foldl_turnIn_eq (state : WindowState) (turns : List (Window.Turn σ)) :
    turns.foldl turnIn state = turns.foldl turn state := by
  induction turns generalizing state with
  | nil => rfl
  | cons t rest ih => rw [List.foldl_cons, List.foldl_cons, turnIn_eq, ih]

/-- Whatever the state of the window, an intake and a take-back leave it the same whatever the order
in which each of their collections is folded in: the views gained by the buckets, the missed boosts
and the runs, or the views lost by the buckets and the removals from the segments. So all windows
that start from that state and are advanced alike stay the same, whatever the orders of their
commits. -/
theorem commits_in_any_order (state : WindowState) :
    (∀ (s : Intake) (order : s.Order), state.commitIntakeIn s order = state.commitIntake s) ∧
      (∀ (s : TakeBack) (order : s.Order),
        state.commitTakeBackIn s order = state.commitTakeBack s) ∧
      ∀ turns : List (Window.Turn σ), turns.foldl turnIn state = turns.foldl turn state :=
  ⟨state.commitIntakeIn_eq, state.commitTakeBackIn_eq, state.foldl_turnIn_eq⟩

-- Two segments begin at one cursor, a third lies within the first, and more is removed than there
-- is. The second segment stays, whichever removal comes first.
example :
    let held : Holding := { segments :=
      [⟨⟨.newsfeed, false⟩, ⟨6, 1⟩, ⟨12, 1⟩, 2⟩, ⟨⟨.newsfeed, true⟩, ⟨6, 1⟩, ⟨8, 1⟩, 1⟩,
        ⟨⟨.sidebar, false⟩, ⟨7, 1⟩, ⟨7, 1⟩, 1⟩] }
    let left : Holding := { segments := [⟨⟨.newsfeed, true⟩, ⟨6, 1⟩, ⟨8, 1⟩, 1⟩] }
    let state : WindowState := { holdings := .ofList [("a", held)] }
    let removed : List (SegmentStart × Nat) := [(⟨"a", ⟨6, 1⟩⟩, 3), (⟨"a", ⟨7, 1⟩⟩, 5)]
    (state.takeBackAll removed).holdings["a"]? = some left ∧
      (state.takeBackAll removed.reverse).holdings["a"]? = some left := by
  decide +kernel

end WindowState

end Pacing
