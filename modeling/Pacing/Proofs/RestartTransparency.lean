import Pacing.Proofs.UprightWindows

/-!
# A restart that nobody notices

A window that is rebuilt from its snapshot may hold other entries of its totals than before, but
only by zeros. Neither scan looks at an entry that is zero in any other way than at one that is
absent, so two windows that agree report the same of every advance and agree after it.
-/

namespace Pacing

namespace WindowState

variable {state state' state'' : WindowState}

namespace Agrees

/-- Agreement is symmetric. -/
theorem symm (h : state.Agrees state') : state'.Agrees state :=
  ⟨h.low_eq.symm, h.high_eq.symm, h.holdings_eq.symm, fun b => (h.total_eq b).symm⟩

/-- Agreement is transitive. -/
theorem trans (h : state.Agrees state') (h' : state'.Agrees state'') : state.Agrees state'' :=
  ⟨h'.low_eq.trans h.low_eq, h'.high_eq.trans h.high_eq, h'.holdings_eq.trans h.holdings_eq,
    fun b => (h'.total_eq b).trans (h.total_eq b)⟩

/-- A take-back finds each view where it found it before. -/
theorem countedIn?_eq (h : state.Agrees state') : TakeBack.countedIn? state' =
    TakeBack.countedIn? state := by
  funext v
  simp only [TakeBack.countedIn?, segmentAt?, h.holdings_eq]

/-- States that agree take views back alike. -/
theorem note_eq (h : state.Agrees state') : TakeBack.note state' = TakeBack.note state := by
  funext s v
  simp only [TakeBack.note, h.countedIn?_eq]

/-- The same intake leaves states that agree in agreement. -/
theorem commitIntake (h : state.Agrees state') (s : Intake) :
    (state.commitIntake s).Agrees (state'.commitIntake s) where
  low_eq := h.low_eq
  high_eq := by simp only [high_commitIntake, h.high_eq]
  holdings_eq := by
    refine Std.ExtTreeMap.ext_getElem? fun {id} => ?_
    simp only [holding_commitIntake, h.holdings_eq]
  total_eq b := by simp only [total_commitIntake, h.total_eq b]

/-- The same take-back leaves states that agree in agreement. -/
theorem commitTakeBack (h : state.Agrees state') (s : TakeBack) :
    (state.commitTakeBack s).Agrees (state'.commitTakeBack s) where
  low_eq := by simp only [low_commitTakeBack, h.low_eq]
  high_eq := h.high_eq
  holdings_eq := by
    refine Std.ExtTreeMap.ext_getElem? fun {id} => ?_
    simp only [holding_commitTakeBack, h.holdings_eq]
  total_eq b := by simp only [total_commitTakeBack, h.total_eq b]

end Agrees

end WindowState

namespace Window

variable {σ : Type}

/-- Two scans that cannot be told apart: what they report is the same, and the states agree. -/
structure ScanOutcome.Agrees (done done' : ScanOutcome σ) : Prop where
  state : done.state.Agrees done'.state
  log_eq : done'.log = done.log
  result_eq : done'.result = done.result
  asked_eq : done'.asked = done.asked

variable [ViewSource σ] {w w' : Window} {state state' : WindowState}

/-- Scans of new views from states that agree cannot be told apart. -/
theorem ingest_agrees (h : state.Agrees state') (now : Int64) (log : σ) (lookup : Lookup) :
    (ingest state now log lookup).Agrees (ingest state' now log lookup) := by
  have hscan : scanIntake state' now log lookup = scanIntake state now log lookup := by
    unfold scanIntake
    rw [h.high_eq]
  unfold ingest ingestBy
  rw [hscan]
  cases hstage : (scanIntake state now log lookup).stage with
  | none => exact ⟨by simpa [Scanned.commitBy, hstage] using h, rfl, rfl, rfl⟩
  | some s => exact ⟨by simpa [Scanned.commitBy, hstage] using h.commitIntake s, rfl, rfl, rfl⟩

/-- Scans of expired views from states that agree cannot be told apart. -/
theorem prune_agrees (h : state.Agrees state') (start : Int64) (log : σ) :
    (prune state start log).Agrees (prune state' start log) := by
  have hscan : scanTakeBack state' start log = scanTakeBack state start log := by
    unfold scanTakeBack
    rw [h.low_eq, h.high_eq, h.note_eq]
  unfold prune pruneBy
  rw [hscan]
  cases hstage : (scanTakeBack state start log).stage with
  | none => exact ⟨by simpa [Scanned.commitBy, hstage] using h, rfl, rfl, rfl⟩
  | some s => exact ⟨by simpa [Scanned.commitBy, hstage] using h.commitTakeBack s, rfl, rfl, rfl⟩

/-- Windows of one length whose states agree begin alike. -/
theorem begin_agrees (hseconds : w'.seconds = w.seconds) (h : w.state.Agrees w'.state)
    (now : Int64) : (w.begin now).Agrees (w'.begin now) := by
  unfold begin
  rw [h.high_eq]
  cases w.state.high with
  | some high => exact h
  | none =>
    have hstart : w'.startAt now = w.startAt now := by simp only [startAt, millis, hseconds]
    exact ⟨by rw [hstart], by rw [hstart], h.holdings_eq, h.total_eq⟩

/-- Two advances that cannot be told apart: their scans report the same, and the states agree. -/
structure Advance.Agrees (done done' : Advance σ) : Prop where
  seconds_eq : done'.window.seconds = done.window.seconds
  state : done.window.state.Agrees done'.window.state
  log_eq : done'.log = done.log
  ingest_eq : done'.ingest = done.ingest
  prune_eq : done'.prune = done.prune
  asked_eq : done'.asked = done.asked

/-- Windows of one length whose states agree advance alike. -/
theorem advance_agrees (hseconds : w'.seconds = w.seconds) (h : w.state.Agrees w'.state)
    (now : Int64) (log : σ) (lookup : Lookup) :
    (w.advance now log lookup).Agrees (w'.advance now log lookup) := by
  have hstart : w'.startAt now = w.startAt now := by simp only [startAt, millis, hseconds]
  have hingest := ingest_agrees (begin_agrees hseconds h now) now log lookup
  have hprune := prune_agrees hingest.state (w.startAt now)
    (ingest (w.begin now) now log lookup).log
  simp only [advance_eq, hstart, hingest.log_eq]
  exact ⟨hseconds, hprune.state, hprune.log_eq, hingest.result_eq, hprune.result_eq,
    hingest.asked_eq⟩

end Window

namespace Chronicle

/-- Two windows of one length over one log whose states agree. -/
structure Twins {σ : Type} (c c' : Chronicle σ) : Prop where
  seconds_eq : c'.window.seconds = c.window.seconds
  log_eq : c'.log = c.log
  state : c.window.state.Agrees c'.window.state

variable {σ : Type} [ViewSource σ] {c c' : Chronicle σ}

/-- What an advance reports of its two scans. -/
def outcome (c : Chronicle σ) (now : Int64) (lookup : Lookup) : Memory.Rehearsal.Outcome :=
  let done := c.window.advance now c.log lookup
  { ingest := done.ingest, prune := done.prune }

/-- Twins report alike on an advance. -/
theorem Twins.outcome_eq (h : Twins c c') (now : Int64) (lookup : Lookup) :
    c'.outcome now lookup = c.outcome now lookup := by
  have hagrees := Window.advance_agrees h.seconds_eq h.state now c.log lookup
  simp only [outcome, h.log_eq, hagrees.ingest_eq, hagrees.prune_eq]

variable [HonestSource σ]

/-- What the advances among several steps report, in the order in which they are made. -/
def outcomes (c : Chronicle σ) : List (Step σ) → List Memory.Rehearsal.Outcome
  | [] => []
  | .log log :: rest => (c.step (.log log)).outcomes rest
  | .advance now lookup :: rest =>
    c.outcome now lookup :: (c.step (.advance now lookup)).outcomes rest
  | .restart seconds :: rest => (c.step (.restart seconds)).outcomes rest

namespace Twins

/-- An advance leaves twins twins. -/
theorem advance (h : Twins c c') (now : Int64) (lookup : Lookup) :
    Twins (c.advance now lookup) (c'.advance now lookup) := by
  have hagrees := Window.advance_agrees h.seconds_eq h.state now c.log lookup
  unfold Chronicle.advance
  rw [h.log_eq]
  exact ⟨hagrees.seconds_eq, hagrees.log_eq, hagrees.state⟩

/-- No step tells twins apart. -/
theorem step (h : Twins c c') (hc : c.Upright) (hc' : c'.Upright) (a : Step σ) :
    Twins (c.step a) (c'.step a) := by
  cases a with
  | log log => exact ⟨h.seconds_eq, rfl, h.state⟩
  | advance now lookup => exact h.advance now lookup
  | restart seconds =>
    obtain ⟨state, hrestart, hstate⟩ := restart_of_tidy hc.tidy seconds
    obtain ⟨state', hrestart', hstate'⟩ := restart_of_tidy hc'.tidy seconds
    rw [Chronicle.step, Chronicle.step, hrestart, hrestart']
    exact ⟨rfl, h.log_eq, hstate.symm.trans (h.state.trans hstate')⟩

/-- Twins stay twins along every run, and all advances report the same of both. -/
theorem run (h : Twins c c') (hc : c.Upright) (hc' : c'.Upright) (steps : List (Step σ)) :
    Twins (c.run steps) (c'.run steps) ∧ c'.outcomes steps = c.outcomes steps := by
  induction steps generalizing c c' with
  | nil => exact ⟨h, rfl⟩
  | cons a rest ih =>
    obtain ⟨htwins, houtcomes⟩ := ih (h.step hc hc' a) (hc.step a) (hc'.step a)
    refine ⟨htwins, ?_⟩
    cases a with
    | log log => exact houtcomes
    | advance now lookup =>
      exact congrArg₂ List.cons (h.outcome_eq now lookup) houtcomes
    | restart seconds => exact houtcomes

end Twins

/-- At any point of any run the window is rebuilt from its snapshot, and whatever happens from there
on, every advance of the rebuilt window reports what the original would have reported, and their
states agree. The log may become any other and the repository may answer in any way throughout. -/
theorem rebuilt_indistinguishable (seconds savedAt : Int64) (log : σ) (steps : List (Step σ)) :
    let c := (start seconds log).run steps
    ∃ state, (Snapshot.capture c.window.state c.window.seconds savedAt).toState = .ok state ∧
      ∀ more : List (Step σ),
        let rebuilt : Chronicle σ := { c with window := { c.window with state } }
        rebuilt.outcomes more = c.outcomes more ∧
          (c.run more).window.state.Agrees (rebuilt.run more).window.state := by
  intro c
  have hstart : (start seconds log).Upright := .inl rfl
  have hc : c.Upright := hstart.run steps
  obtain ⟨state, hstate, hagrees, hupright⟩ := hc.rebuild savedAt
  refine ⟨state, hstate, fun more => ?_⟩
  have htwins : Twins c { c with window := { c.window with state } } := ⟨rfl, rfl, hagrees⟩
  obtain ⟨hrun, houtcomes⟩ := htwins.run hc (hupright c.window.seconds) more
  exact ⟨houtcomes, hrun.state⟩

end Chronicle

end Pacing
