import Pacing.Proofs.RehearsalChronicle
import Pacing.Proofs.CommonPast
import Pacing.Scheduler

/-!
# The chronicle of a task

A task runs its cycles over a log and a repository in memory, which change in between. Told step by
step it is a chronicle with the same window and the same log. A cycle that does not take place moves
nothing.
-/

namespace Pacing

/-- A cycle for which the active boosts can be fetched advances the window and offers a ranking of
every active boost. -/
theorem Engine.cycle_of_active {σ ρ : Type} [ViewSource σ] [BoostRepository ρ] {repository : ρ}
    {boosts : List Boost} (hactive : BoostRepository.active repository = .ok boosts) (e : Engine)
    (now : Int64) (log : σ) :
    let done := e.cycle now log repository
    let advance := e.window.advance now log (BoostRepository.lookup repository)
    let offered := offer repository
      ((rosterOf boosts).toList.map fun entry => advance.window.state.ranking entry.2)
    done.engine.window = advance.window ∧ done.log = advance.log ∧
      done.offered = offered.1 ∧ done.repository = offered.2 := by
  simp only [cycle, hactive, and_self]

/-- A cycle for which they cannot be fetched does nothing. -/
theorem Engine.cycle_of_not_active {σ ρ : Type} [ViewSource σ] [BoostRepository ρ] {repository : ρ}
    {cause : RepositoryError} (hactive : BoostRepository.active repository = .error cause)
    (e : Engine) (now : Int64) (log : σ) :
    e.cycle now log repository =
      { engine := { e with roster := ∅ }, log, repository, report := .error ⟨cause⟩ } := by
  simp only [cycle, hactive]

/-- What the storing of each of some rankings preserves, an offer of them preserves, whichever of
them are refused. -/
theorem Engine.offer_preserves {ρ : Type} [BoostRepository ρ] {P : ρ → Prop}
    {rankings : List Ranking}
    (hstore : ∀ x ∈ rankings, ∀ r r', BoostRepository.store r x = .ok r' → P r → P r') {r : ρ}
    (hr : P r) : P (offer r rankings).2 := by
  induction rankings generalizing r with
  | nil => exact hr
  | cons x rest ih =>
    obtain ⟨hx, hrest⟩ := List.forall_mem_cons.mp hstore
    simp only [offer]
    split
    · rename_i r' hr'
      exact ih hrest (hx r r' hr' hr)
    · exact ih hrest hr

namespace Memory.Repository

/-- The boosts of two repositories are the same, and so are their profiles. -/
def SameProfiles (r r' : Repository) : Prop :=
  ∀ id : String, r'.boosts[id]?.map Boost.profile = r.boosts[id]?.map Boost.profile

/-- What a repository answers while it can be reached. -/
def known (r : Repository) : Lookup := fun id => .ok r.boosts[id]?

namespace SameProfiles

variable {r r' r'' : Repository}

/-- A repository has its own profiles. -/
theorem refl (r : Repository) : r.SameProfiles r := fun _ => rfl

/-- Having the same profiles is transitive. -/
theorem trans (h : r.SameProfiles r') (h' : r'.SameProfiles r'') : r.SameProfiles r'' :=
  fun id => (h' id).trans (h id)

/-- Whenever a repository answers, it has the profiles that it had. -/
theorem echoes (h : r.SameProfiles r') : Lookup.Echoes r'.lookup r.known := by
  intro id boost hanswer
  unfold lookup at hanswer
  split at hanswer
  · cases hanswer
  · cases hanswer
    exact h id

end SameProfiles

/-- A ranking is stored in place of an earlier one unless the repository is down or refuses it. -/
theorem store_eq_ok_iff {r r' : Repository} {x : Ranking} :
    r.store x = .ok r' ↔ r.isDown = false ∧ x.boost ∉ r.refused ∧
      r' = { r with rankings := r.rankings.insert x.boost x } := by
  unfold store
  split
  · rename_i h
    simp only [reduceCtorEq, false_iff]
    rintro ⟨hup, haccepted, _⟩
    simp [hup, haccepted] at h
  · rename_i h
    simp only [not_or, Bool.not_eq_true] at h
    simp [h.1, h.2, eq_comm]

/-- Storing rankings leaves the boosts as they are. -/
theorem boosts_offer (r : Repository) (rankings : List Ranking) :
    (Engine.offer r rankings).2.boosts = r.boosts := by
  refine Engine.offer_preserves (P := fun r' : Repository => r'.boosts = r.boosts) ?_ rfl
  intro x _ r₁ r₂ hstore hboosts
  obtain ⟨-, -, rfl⟩ := store_eq_ok_iff.mp hstore
  exact hboosts

/-- A cycle leaves the boosts as they are. -/
theorem boosts_cycle (e : Engine) (now : Int64) (log : Log) (r : Repository) :
    (e.cycle now log r).repository.boosts = r.boosts := by
  cases hactive : BoostRepository.active r with
  | ok boosts =>
    rw [(Engine.cycle_of_active hactive e now log).2.2.2, boosts_offer]
  | error cause => rw [Engine.cycle_of_not_active hactive]

end Memory.Repository

namespace Scheduler.Task

open Memory

/-- What happens to a task. -/
inductive Step where
  /-- The log or the repository changes. -/
  | change (c : Change)
  /-- A cycle is run. -/
  | cycle (now : Int64) (target : Target) (savedAt : Int64)

/-- A task that begins with an empty window, an empty log and an empty repository. -/
def start (seconds : Int64) : Task Log Repository :=
  { engine := .start seconds, log := { ordered := List.Pairwise.nil }, repository := {} }

/-- The log and the repository. -/
def world (t : Task Log Repository) : World := { log := t.log, repository := t.repository }

/-- The task after a change of its world. -/
def change (t : Task Log Repository) (c : Change) : Task Log Repository :=
  { t with log := (t.world.change c).log, repository := (t.world.change c).repository }

/-- The task after a step. -/
def step (t : Task Log Repository) : Step → Task Log Repository
  | .change c => t.change c
  | .cycle now target savedAt => (t.cycle now target savedAt).1

/-- The task after several steps. -/
def after (t : Task Log Repository) (steps : List Step) : Task Log Repository := steps.foldl step t

/-- Views are filed past the high watermark only. -/
def FilesPast (t : Task Log Repository) : Step → Prop
  | .change c => ∀ high ∈ t.engine.window.state.high, ∀ v ∈ c.filed, high < v.cursor
  | .cycle _ _ _ => True

instance (t : Task Log Repository) : (a : Step) → Decidable (t.FilesPast a)
  | .change c => inferInstanceAs (Decidable (∀ high ∈ t.engine.window.state.high,
      ∀ v ∈ c.filed, high < v.cursor))
  | .cycle _ _ _ => isTrue trivial

/-- No step changes the length of the window. -/
theorem seconds_step (t : Task Log Repository) (a : Step) :
    (t.step a).engine.window.seconds = t.engine.window.seconds := by
  cases a with
  | change c => rfl
  | cycle now target savedAt =>
    show (t.engine.cycle now t.log t.repository).engine.window.seconds = t.engine.window.seconds
    cases hactive : BoostRepository.active t.repository with
    | ok boosts => rw [(Engine.cycle_of_active hactive t.engine now t.log).1, Window.advance_eq]
    | error cause => rw [Engine.cycle_of_not_active hactive]

/-- The steps of a task leave the length of its window as it is. -/
theorem seconds_after (t : Task Log Repository) (steps : List Step) :
    (t.after steps).engine.window.seconds = t.engine.window.seconds := by
  induction steps generalizing t with
  | nil => rfl
  | cons a rest ih => exact (ih (t.step a)).trans (t.seconds_step a)

/-- A step of a task as its chronicle tells it. -/
def tell (t : Task Log Repository) : Step → Chronicle.Step Log
  | .change c => .log (t.change c).log
  | .cycle now _ _ =>
    match BoostRepository.active t.repository with
    | .ok _ => .advance now t.repository.lookup
    | .error _ => .log t.log

/-- The steps of a task as its chronicle tells them. -/
def told (t : Task Log Repository) (steps : List Step) : List (Chronicle.Step Log) :=
  retold step tell t steps

/-- A chronicle that has the window and the log of a task. -/
structure MirroredBy (t : Task Log Repository) (c : Chronicle Log) : Prop where
  window_eq : c.window = t.engine.window
  log_eq : c.log = t.log

namespace MirroredBy

variable {t : Task Log Repository} {c : Chronicle Log}

/-- A cycle that takes place advances the window. -/
theorem advance (h : t.MirroredBy c) {boosts : List Boost}
    (hactive : BoostRepository.active t.repository = .ok boosts) (now : Int64) (target : Target)
    (savedAt : Int64) :
    (t.cycle now target savedAt).1.MirroredBy (c.advance now t.repository.lookup) := by
  obtain ⟨hwindow, hlog, -⟩ := Engine.cycle_of_active hactive t.engine now t.log
  refine ⟨?_, ?_⟩
  · rw [Chronicle.advance, h.window_eq, h.log_eq]
    exact hwindow.symm
  · rw [Chronicle.advance, h.window_eq, h.log_eq]
    exact hlog.symm

/-- A step of a task is mirrored by the step that is told. -/
theorem step (h : t.MirroredBy c) (a : Step) : (t.step a).MirroredBy (c.step (t.tell a)) := by
  cases a with
  | change change => exact ⟨h.window_eq, rfl⟩
  | cycle now target savedAt =>
    unfold tell
    cases hactive : BoostRepository.active t.repository with
    | ok boosts => exact h.advance hactive now target savedAt
    | error cause =>
      have hdone := Engine.cycle_of_not_active hactive t.engine now t.log
      refine ⟨?_, ?_⟩
      · simp only [Task.step, Task.cycle, hdone]
        exact h.window_eq
      · simp only [Task.step, Task.cycle, hdone, Chronicle.step]

/-- A run of a task is mirrored by the run that is told. -/
theorem after (h : t.MirroredBy c) (steps : List Step) :
    (t.after steps).MirroredBy (c.run (t.told steps)) :=
  related_of_retold (R := MirroredBy) (fun _ _ a h => h.step a) h steps

/-- Filing views past the high watermark leaves what the chronicle has read as it is. -/
theorem settled (h : t.MirroredBy c) {a : Step} (ha : t.FilesPast a) : c.Settled (t.tell a) := by
  cases a with
  | change change =>
    intro high hhigh
    rw [h.window_eq] at hhigh
    rw [h.log_eq]
    exact World.filter_change (ha high hhigh) t.world
  | cycle now target savedAt =>
    unfold tell
    cases BoostRepository.active t.repository with
    | ok boosts => trivial
    | error e =>
      intro high _
      rw [h.log_eq]

/-- Where views are filed past the high watermark only, the chronicle stays settled. -/
theorem along_settled (h : t.MirroredBy c) {steps : List Step}
    (hsteps : Along Task.step FilesPast t steps) :
    Along Chronicle.step Chronicle.Settled c (t.told steps) :=
  hsteps.retold (R := MirroredBy) (fun _ _ a ha h => ⟨h.step a, h.settled ha⟩) h

end MirroredBy

end Scheduler.Task

end Pacing
