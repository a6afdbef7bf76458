import Pacing.Proofs.ChronicleAccounts

/-!
# Every window can be saved

Whatever becomes of the log and the repository, no step leaves anything in a window that a snapshot
would drop or refuse. Watermarks and segments run forward, no segment ends past the high watermark,
every segment holds views and every boost that is kept has segments. The bound by the high watermark
is what keeps a segment from running backwards when a later run continues it.
-/

namespace Pacing

/-- A segment holds views, runs forward and does not end past the high watermark. -/
structure Segment.Upright (s : Segment) (high : Cursor) : Prop where
  held : 0 < s.views
  forward : s.first ≤ s.last
  below : s.last ≤ high

/-- A holding has segments and all of them are upright. -/
structure Holding.Upright (h : Holding) (high : Cursor) : Prop where
  nonempty : h.segments ≠ []
  segments : ∀ s ∈ h.segments, s.Upright high

section Segments

variable {s run : Segment} {high high' : Cursor}

/-- An upright segment stays so below a higher watermark. -/
theorem Segment.Upright.raise (h : s.Upright high) (hhigh : high ≤ high') : s.Upright high' :=
  ⟨h.held, h.forward, le_trans h.below hhigh⟩

/-- A run past the high watermark continues a segment forward. -/
theorem Segment.Upright.join (h : s.Upright high) (hrun : run.Upright high')
    (hpast : high < run.first) : (s.join run).Upright high' where
  held := Nat.lt_of_lt_of_le h.held (Nat.le_add_right _ _)
  forward := by
    have hnext : s.first < run.first :=
      lt_of_le_of_lt (le_trans h.forward h.below) hpast
    exact le_trans (le_of_lt hnext) hrun.forward
  below := hrun.below

/-- A run of views that were counted is an upright segment. -/
theorem SegmentsSound.RunOf.upright {p : Profile} {fresh : List Reading}
    (h : SegmentsSound.RunOf run p fresh high high') : run.Upright high' where
  held := by
    rw [h.views_eq]
    exact List.length_pos_of_ne_nil h.ne_nil
  forward := h.forward
  below := h.below

end Segments

namespace Holding

variable {h g : Holding} {run : Segment} {high high' start : Cursor} {n : Nat}

/-- An upright holding stays so below a higher watermark. -/
theorem Upright.raise (h : g.Upright high) (hhigh : high ≤ high') : g.Upright high' :=
  ⟨h.nonempty, fun s hs => (h.segments s hs).raise hhigh⟩

/-- Sealing leaves a holding upright. -/
theorem Upright.sealOff (h : g.Upright high) : g.sealOff.Upright high :=
  ⟨h.nonempty, h.segments⟩

/-- A run past the high watermark leaves a holding upright, whether there was one before or not. -/
theorem Upright.append {held : Option Holding} (h : ∀ g ∈ held, g.Upright high)
    (hrun : run.Upright high') (hpast : high < run.first) :
    ((held.getD {}).append run).Upright high' := by
  have hhigh : high ≤ high' :=
    le_of_lt (lt_of_lt_of_le hpast (le_trans hrun.forward hrun.below))
  cases held with
  | none => exact ⟨by simp [Holding.append], by simpa [Holding.append] using hrun⟩
  | some g =>
    have hg := h g rfl
    obtain ⟨segments, isSealed⟩ := g
    obtain ⟨front, newest, rfl⟩ := List.eq_nil_or_concat' segments |>.resolve_left hg.nonempty
    have hfront : ∀ s ∈ front, s.Upright high' := fun s hs =>
      (hg.segments s (List.mem_append_left _ hs)).raise hhigh
    have hnewest : newest.Upright high := hg.segments newest (by simp)
    rw [Option.getD_some, Holding.append_concat]
    split
    · refine ⟨by simp, List.forall_mem_append.mpr ⟨hfront, List.forall_mem_singleton.mpr ?_⟩⟩
      exact hnewest.join hrun hpast
    · refine ⟨by simp, List.forall_mem_append.mpr ⟨List.forall_mem_append.mpr ⟨hfront, ?_⟩, ?_⟩⟩
      · exact List.forall_mem_singleton.mpr (hnewest.raise hhigh)
      · exact List.forall_mem_singleton.mpr hrun

/-- Taking views back shortens no segment and leaves none without views. -/
theorem upright_of_mem_reduce {segments : List Segment} (h : ∀ s ∈ segments, s.Upright high) :
    ∀ s ∈ reduce start n segments, s.Upright high :=
  forall_mem_reduce (fun _ hs hleft => ⟨Nat.sub_pos_of_lt hleft, hs.forward, hs.below⟩) h

/-- Taking views back leaves a holding upright. -/
theorem Upright.takeBack (h : g.Upright high) {g' : Holding}
    (htake : g.takeBack? start n = some g') : g'.Upright high := by
  have hreduced : ∀ s ∈ reduce start n g.segments, s.Upright high :=
    upright_of_mem_reduce h.segments
  unfold takeBack? at htake
  split at htake
  · cases htake
  · rename_i hleft
    cases htake
    exact ⟨hleft, hreduced⟩

end Holding

/-- A run that an intake of views past the high watermark has staged is upright and lies past it. -/
theorem Intake.SumsUp.upright_run {lookup : Lookup} {views : List View} {s : Intake}
    {high : Cursor} (hs : SumsUp lookup views s) (hpast : ∀ v ∈ views, high < v.cursor)
    {id : String} {run : Segment} (hrun : s.runs[id]? = some run) :
    run.Upright (reach views high) ∧ high < run.first := by
  cases hprofile : profileOf lookup id with
  | none => simp [hs.runs_eq, hprofile] at hrun
  | some p =>
    have hrunOf := Accounts.runOf_of_staged hs hpast hprofile hrun
    exact ⟨hrunOf.upright, hrunOf.past⟩

namespace WindowState

/-- The watermarks run forward, and every holding is upright below the high one. -/
structure Upright (state : WindowState) (low high : Cursor) : Prop where
  low_eq : state.low = some low
  high_eq : state.high = some high
  low_le_high : low ≤ high
  holdings : ∀ id : String, ∀ h ∈ state.holdings[id]?, h.Upright high

namespace Upright

variable {state state' : WindowState} {low high : Cursor} {views : List View}

/-- A window that begins is upright: it holds nothing. -/
theorem begin (w : Window) (hstate : w.state = {}) (now : Int64) :
    (w.begin now).Upright (Cursor.floor (w.startAt now)) (Cursor.floor (w.startAt now)) := by
  have hbegin : w.begin now =
      { low := some (Cursor.floor (w.startAt now))
        high := some (Cursor.floor (w.startAt now)) } := by
    simp [Window.begin, hstate]
  rw [hbegin]
  exact ⟨rfl, rfl, le_refl _, by simp⟩

/-- A window whose state is upright has begun. -/
theorem begin_eq {w : Window} (h : w.state.Upright low high) (now : Int64) :
    w.begin now = w.state := by
  simp [Window.begin, h.high_eq]

/-- Nothing of an upright window is dropped or refused by a snapshot. -/
theorem tidy (h : state.Upright low high) : state.Tidy where
  watermarks := .inr ⟨low, high, h.low_eq, h.high_eq, h.low_le_high⟩
  nonempty id g hg := (h.holdings id g hg).nonempty
  held id g hg s hs := ((h.holdings id g hg).segments s hs).held
  forward id g hg s hs := ((h.holdings id g hg).segments s hs).forward

/-- A state that agrees with an upright one is upright. -/
theorem agrees (h : state.Upright low high) (hagrees : state.Agrees state') :
    state'.Upright low high where
  low_eq := hagrees.low_eq.trans h.low_eq
  high_eq := hagrees.high_eq.trans h.high_eq
  low_le_high := h.low_le_high
  holdings := by
    rw [hagrees.holdings_eq]
    exact h.holdings

/-- Committing an intake of views past the high watermark leaves a window upright. -/
theorem commitIntake (h : state.Upright low high) {lookup : Lookup} {s : Intake}
    (hs : Intake.SumsUp lookup views s) (hpast : ∀ v ∈ views, high < v.cursor) :
    (state.commitIntake s).Upright low (reach views high) where
  low_eq := (state.low_commitIntake s).trans h.low_eq
  high_eq := hs.high_eq_reach h.high_eq
  low_le_high := le_trans h.low_le_high (start_le_reach hpast)
  holdings id := by
    refine state.forall_holding_commitIntake (fun g hg => hg.raise (start_le_reach hpast))
      (fun g hg => hg.sealOff) (fun run hrun held hheld => ?_) (h.holdings id)
    obtain ⟨hupright, hfirst⟩ := hs.upright_run hpast hrun
    exact Holding.Upright.append hheld hupright hfirst

/-- Committing a take-back of views up to the high watermark leaves a window upright. -/
theorem commitTakeBack (h : state.Upright low high) {s : TakeBack}
    (hs : TakeBack.SumsUp state views s) (hbelow : ∀ v ∈ views, v.cursor ≤ high) :
    (state.commitTakeBack s).Upright (reach views low) high where
  low_eq := hs.low_eq_reach h.low_eq
  high_eq := (state.high_commitTakeBack s).trans h.high_eq
  low_le_high := by
    rcases List.eq_nil_or_concat' views with rfl | ⟨front, last, rfl⟩
    · exact h.low_le_high
    · rw [reach_of_getLast? List.getLast?_concat]
      exact hbelow last (by simp)
  holdings id := state.forall_holding_commitTakeBack
    (fun _ _ _ _ hg htake => hg.takeBack htake) s (h.holdings id)

variable {σ : Type} [ViewSource σ] [HonestSource σ]

/-- A scan of new views leaves a window upright. -/
theorem ingest (h : state.Upright low high) (now : Int64) (log : σ) (lookup : Lookup) :
    (Window.ingest state now log lookup).state.Upright low
      (reach (Window.freshViews state now log lookup) high) := by
  obtain ⟨_, s, hs, hstate⟩ := Window.ingest_spec state now log lookup
  rw [hstate]
  exact h.commitIntake hs fun v hv => (Window.of_mem_freshViews h.high_eq hv).2.1

/-- A scan of expired views leaves a window upright. -/
theorem prune (h : state.Upright low high) (start : Int64) (log : σ) :
    (Window.prune state start log).state.Upright
      (reach (Window.staleViews state start log) low) high := by
  obtain ⟨_, s, hs, hstate⟩ := Window.prune_spec state start log
  rw [hstate]
  exact h.commitTakeBack hs fun v hv => (Window.of_mem_staleViews h.low_eq h.high_eq hv).2.2.1

end Upright

end WindowState

namespace Chronicle

variable {σ : Type} {c : Chronicle σ}

/-- A window is upright unless it has not begun. -/
def Upright (c : Chronicle σ) : Prop :=
  c.window.state = {} ∨ ∃ low high, c.window.state.Upright low high

namespace Upright

/-- Nothing of the window is dropped or refused by a snapshot. -/
theorem tidy (h : c.Upright) : c.window.state.Tidy := by
  rcases h with hstate | ⟨low, high, h⟩
  · rw [hstate]
    exact ⟨.inl ⟨rfl, rfl⟩, by simp, by simp, by simp⟩
  · exact h.tidy

/-- The window is rebuilt from its snapshot in a state that agrees, and is upright again. -/
theorem rebuild (h : c.Upright) (savedAt : Int64) :
    ∃ state, (Snapshot.capture c.window.state c.window.seconds savedAt).toState = .ok state ∧
      c.window.state.Agrees state ∧
      ∀ seconds, ({ c with window := { seconds, state } } : Chronicle σ).Upright := by
  obtain ⟨state, hstate, hagrees⟩ := Snapshot.toState_capture h.tidy c.window.seconds savedAt
  refine ⟨state, hstate, hagrees, fun seconds => ?_⟩
  rcases h with hempty | ⟨low, high, h⟩
  · rw [hempty, Snapshot.toState_capture_empty] at hstate
    exact .inl (Except.ok.inj hstate).symm
  · exact .inr ⟨low, high, h.agrees hagrees⟩

variable [ViewSource σ] [HonestSource σ]

/-- An advance leaves the window upright. -/
theorem advance (h : c.Upright) (now : Int64) (lookup : Lookup) :
    ∃ low high, (c.advance now lookup).window.state.Upright low high := by
  obtain ⟨low, high, hbegun⟩ : ∃ low high, (c.window.begin now).Upright low high := by
    rcases h with hstate | ⟨low, high, h⟩
    · exact ⟨_, _, WindowState.Upright.begin c.window hstate now⟩
    · rw [h.begin_eq]
      exact ⟨low, high, h⟩
  exact ⟨_, _, (hbegun.ingest now c.log lookup).prune (c.window.startAt now) _⟩

/-- No step leaves a window that is not upright. -/
theorem step (h : c.Upright) (a : Step σ) : (c.step a).Upright := by
  cases a with
  | log log => exact h
  | advance now lookup => exact .inr (h.advance now lookup)
  | restart seconds =>
    obtain ⟨state, hstate, -, hupright⟩ := h.rebuild 0
    simpa only [Chronicle.step, restart, hstate] using hupright seconds

/-- Every window is upright after every run. -/
theorem run (h : c.Upright) (steps : List (Step σ)) : (c.run steps).Upright := by
  induction steps generalizing c with
  | nil => exact h
  | cons a rest ih => exact ih (h.step a)

end Upright

end Chronicle

end Pacing
