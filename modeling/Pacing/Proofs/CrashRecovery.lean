import Pacing.Proofs.SnapshotText
import Pacing.Proofs.TaskChronicle

/-!
# A restart loses no view and counts none twice

A task that is killed goes on from the window it saved last. The cycles it has run since then are
lost, and the next cycle reads again what they have read, in other portions. As long as the boosts
have kept their profiles, that cycle leaves the counters, the watermarks and the rankings that it
would have left had the task not been killed.
-/

namespace Pacing

/-- Equal counters rank every boost alike. -/
theorem WindowState.SameCounters.ranking_eq {state state' : WindowState}
    (h : state.SameCounters state') (b : Boost) : state'.ranking b = state.ranking b := by
  have hrank : state'.audienceRank b = state.audienceRank b := by
    funext a
    simp only [audienceRank, h.total_eq, h.viewsOf_eq]
  simp only [ranking, audienceRanks, hrank]

/-- The views of a segment fit into 64 bits if those that were read do. -/
theorem Accounts.fits {state : WindowState} {readings : List Reading} {low high : Cursor}
    (h : Accounts state readings low high) (hsize : readings.length < 2 ^ 64) (id : String) :
    ∀ g ∈ state.holdings[id]?, g.Fits := by
  intro g hg s hs
  have hviews : state.viewsOf id = g.views := by
    rw [WindowState.viewsOf, hg]
    rfl
  have hle : s.views ≤ g.views := List.le_sum_of_mem (List.mem_map_of_mem hs)
  rw [← hviews] at hle
  exact Nat.lt_of_le_of_lt hle (h.viewsOf_lt hsize id)

namespace Engine.Cycle

variable {σ ρ : Type}

/-- The cycle takes place, and both its scans are complete. -/
def Succeeds (done : Cycle σ ρ) : Prop :=
  ∃ report, done.report = .ok report ∧ report.ingestError = none ∧ report.pruneError = none

/-- Two cycles leave the same counters and watermarks, and write the same rankings. -/
structure SameResults (done done' : Cycle σ ρ) : Prop where
  counters : done.engine.window.state.SameCounters done'.engine.window.state
  offered_eq : done'.offered = done.offered
  repository_eq : done'.repository = done.repository

end Engine.Cycle

/-- A cycle whose report is there has fetched the active boosts. -/
theorem Engine.active_of_report {σ ρ : Type} [ViewSource σ] [BoostRepository ρ] {e : Engine}
    {now : Int64} {log : σ} {repository : ρ} {report : CycleReport}
    (h : (e.cycle now log repository).report = .ok report) :
    ∃ boosts, BoostRepository.active repository = .ok boosts := by
  cases hactive : BoostRepository.active repository with
  | ok boosts => exact ⟨boosts, rfl⟩
  | error cause =>
    rw [cycle_of_not_active hactive] at h
    cases h

/-- A cycle that succeeds has fetched the active boosts. -/
theorem Engine.active_of_succeeds {σ ρ : Type} [ViewSource σ] [BoostRepository ρ] {e : Engine}
    {now : Int64} {log : σ} {repository : ρ} (h : (e.cycle now log repository).Succeeds) :
    ∃ boosts, BoostRepository.active repository = .ok boosts := by
  obtain ⟨report, hreport, -, -⟩ := h
  exact active_of_report hreport

/-- Two cycles over one log and one repository that leave the same counters write the same
rankings. -/
theorem Engine.Cycle.SameResults.of_counters {σ ρ : Type} [ViewSource σ] [BoostRepository ρ]
    {e e' : Engine} {now : Int64} {log : σ} {repository : ρ} {boosts : List Boost}
    (hactive : BoostRepository.active repository = .ok boosts)
    (hcounters : (e.cycle now log repository).engine.window.state.SameCounters
      (e'.cycle now log repository).engine.window.state) :
    (e.cycle now log repository).SameResults (e'.cycle now log repository) := by
  obtain ⟨hwindow, -, hoffered, hrepository⟩ := Engine.cycle_of_active hactive e now log
  obtain ⟨hwindow', -, hoffered', hrepository'⟩ := Engine.cycle_of_active hactive e' now log
  have hranking (b : Boost) := hcounters.ranking_eq b
  simp only [hwindow, hwindow'] at hranking
  refine ⟨hcounters, ?_, ?_⟩
  · simp only [hoffered, hoffered', hranking]
  · simp only [hrepository, hrepository', hranking]

namespace Scheduler.Task

open Memory
open HonestSource (held)

variable {t saved : Task Log Repository} {c c' : Chronicle Log} {now : Int64}

/-- The next cycle of a task. -/
def next (t : Task Log Repository) (now : Int64) : Engine.Cycle Log Repository :=
  t.engine.cycle now t.log t.repository

/-- A cycle that succeeds advances the window completely. -/
theorem MirroredBy.completes (h : t.MirroredBy c) (hdone : (t.next now).Succeeds) :
    c.Completes now t.repository.lookup := by
  obtain ⟨report, hreport, hingest, hprune⟩ := hdone
  have hcomplete {result : Except ScanError Tally} (hresult : Engine.errorIn result = none) :
      ∃ tally, result = .ok tally := by
    cases result with
    | ok tally => exact ⟨tally, rfl⟩
    | error e => cases hresult
  unfold next Engine.cycle at hreport
  split at hreport
  · cases hreport
  · cases hreport
    rw [Chronicle.Completes, h.window_eq, h.log_eq]
    exact ⟨hcomplete hingest, hcomplete hprune⟩

/-- A cycle takes place, and the window is saved after it. -/
def Saves (t : Task Log Repository) (now savedAt : Int64) (saved : Task Log Repository) : Prop :=
  ∃ report, (t.next now).report = .ok report ∧ (t.cycle now .file savedAt).1 = saved

/-- After a cycle that saves, the file is the snapshot of the window that the cycle left. -/
theorem Saves.file_eq {savedAt : Int64} (h : t.Saves now savedAt saved) : saved.file =
    .save saved.engine.window.state saved.engine.window.seconds savedAt := by
  obtain ⟨report, hreport, rfl⟩ := h
  have hreport' : (t.engine.cycle now t.log t.repository).report = .ok report := hreport
  simp only [Task.cycle, hreport']

/-- A task for whose window a state is found goes on from that state. -/
theorem restart_of_load {seconds : Int64} {state : WindowState}
    (h : t.file.load seconds = .ok (some state)) : t.restart seconds =
      .ok ({ t with engine := (Engine.start seconds).restore state }, true) := by
  simp only [Task.restart, h]

/-- A step after which the saved window is still the same: views are filed past the high watermark
and every boost keeps its profile, or a cycle is run, no later than a given time, and not saved. -/
def Unsaved (now : Int64) (t : Task Log Repository) : Step → Prop
  | .change c => t.FilesPast (.change c) ∧ t.repository.SameProfiles (t.change c).repository
  | .cycle earlier target savedAt =>
    earlier ≤ now ∧ (t.cycle earlier target savedAt).1.file = t.file

/-- A task that has saved nothing since another state of it. -/
structure SinceSaved (saved t : Task Log Repository) : Prop where
  file_eq : t.file = saved.file
  profiles : saved.repository.SameProfiles t.repository

/-- A step after which the saved window is the same leaves the file and the profiles as they
were. -/
theorem SinceSaved.step (h : saved.SinceSaved t) {a : Step} (ha : t.Unsaved now a) :
    saved.SinceSaved (t.step a) := by
  cases a with
  | change c => exact ⟨h.file_eq, h.profiles.trans ha.2⟩
  | cycle earlier target savedAt =>
    refine ⟨ha.2.trans h.file_eq, h.profiles.trans fun id => ?_⟩
    exact congrArg (fun boosts => boosts[id]?.map Boost.profile)
      (Repository.boosts_cycle t.engine earlier t.log t.repository)

/-- A run of such steps leaves the file and the profiles as they were. -/
theorem SinceSaved.after {steps : List Step} (hsteps : Along Task.step (Unsaved now) saved steps) :
    saved.SinceSaved (saved.after steps) :=
  hsteps.preserves (fun _ _ ha h => SinceSaved.step h ha) ⟨rfl, .refl _⟩

/-- The chronicle of a task goes on from where the task was saved. -/
theorem MirroredBy.continues (h : t.MirroredBy c) (hsince : saved.SinceSaved t) {a : Step}
    (ha : t.Unsaved now a) : c.Continues now saved.repository.known (t.tell a) := by
  cases a with
  | change change => exact h.settled ha.1
  | cycle earlier target savedAt =>
    unfold tell
    cases BoostRepository.active t.repository with
    | ok boosts => exact ⟨ha.1, hsince.profiles.echoes⟩
    | error e => exact fun high _ => by rw [h.log_eq]

/-- A run of a task that saves nothing is told by its chronicle as a run that continues from
there. -/
theorem MirroredBy.along_continues (h : saved.MirroredBy c) {steps : List Step}
    (hsteps : Along Task.step (Unsaved now) saved steps) :
    Along Chronicle.step (Chronicle.Continues now saved.repository.known) c (saved.told steps) := by
  have hsince : saved.SinceSaved saved := ⟨rfl, .refl _⟩
  refine hsteps.retold (R := fun t c => t.MirroredBy c ∧ saved.SinceSaved t) ?_ ⟨h, hsince⟩
  intro t c a ha ht
  obtain ⟨hmirrored, hsince⟩ := ht
  exact ⟨⟨hmirrored.step a, hsince.step ha⟩, hmirrored.continues hsince ha⟩

/-- Two engines over one log and one repository whose chronicles go on from one base: where the next
cycle succeeds for both, it has the same results. -/
theorem sameResults_of_follows {base : Chronicle Log} {known : Lookup} {e : Engine}
    {start low₀ high₀ low high low' high' : Cursor} (hsize : t.log.views.length < 2 ^ 64)
    (hechoes : Lookup.Echoes t.repository.lookup known)
    (hfollows : Chronicle.Follows now known base c start low₀ high₀ low high)
    (hfollows' : Chronicle.Follows now known base c' start low₀ high₀ low' high')
    (h : t.MirroredBy c) (h' : { t with engine := e }.MirroredBy c')
    (hdone : (t.next now).Succeeds) (hdone' : ({ t with engine := e }.next now).Succeeds) :
    (t.next now).SameResults ({ t with engine := e }.next now) := by
  obtain ⟨boosts, hactive⟩ := Engine.active_of_succeeds hdone
  obtain ⟨_, _, hadvanced, hcaught⟩ := hfollows.advance (Int64.le_refl now) hechoes
  obtain ⟨_, _, hadvanced', hcaught'⟩ := hfollows'.advance (Int64.le_refl now) hechoes
  have hheld : held (c.advance now t.repository.lookup).log = t.log.views :=
    (Window.held_advance c.window now c.log _).trans (congrArg held h.log_eq)
  have hheld' : held (c'.advance now t.repository.lookup).log = t.log.views :=
    (Window.held_advance c'.window now c'.log _).trans (congrArg held h'.log_eq)
  have hcounters := hadvanced.counters_eq_of_caughtUp hadvanced' (hheld'.trans hheld.symm)
    (hcaught (h.completes hdone)) (hcaught' (h'.completes hdone')) (hheld ▸ hsize)
  rw [(h.advance hactive now .nowhere 0).window_eq,
    (h'.advance hactive now .nowhere 0).window_eq] at hcounters
  exact .of_counters hactive hcounters

/-- The saved window of a task is that of a chronicle which conserves what was read. -/
structure SavedAs (saved : Task Log Repository) (seconds savedAt : Int64) (base : Chronicle Log)
    (start low high : Cursor) : Prop where
  mirrored : saved.MirroredBy base
  seconds_eq : base.window.seconds = seconds
  file_eq : saved.file = .save base.window.state seconds savedAt
  conserved : Conserved base.window.state base.readings (held base.log) start low high

/-- A task has such a chronicle when it has just saved its window. -/
theorem Saves.savedAs {seconds savedAt : Int64} {steps : List Step}
    (hsteps : Along step FilesPast (start seconds) steps)
    (h : ((start seconds).after steps).Saves now savedAt saved) :
    ∃ base first low high, saved.SavedAs seconds savedAt base first low high := by
  have hfile := h.file_eq
  obtain ⟨report, hreport, rfl⟩ := h
  obtain ⟨boosts, hactive⟩ := Engine.active_of_report hreport
  have hstart : (start seconds).MirroredBy (Chronicle.start seconds {}) := ⟨rfl, rfl⟩
  have hmirrored := (hstart.after steps).advance hactive now .file savedAt
  have hseconds := ((start seconds).after steps).seconds_step (.cycle now .file savedAt)
  rw [seconds_after] at hseconds
  obtain ⟨first, low, high, hconserved⟩ :=
    (Chronicle.InOrder.run (hstart.along_settled hsteps)).advance now
      ((start seconds).after steps).repository.lookup
  refine ⟨_, first, low, high, hmirrored, ?_, ?_, hconserved⟩
  · rw [hmirrored.window_eq]
    exact hseconds
  · rw [hmirrored.window_eq, hfile]
    exact congrArg (SnapshotFile.save _ · savedAt) hseconds

/-- A task saves its window after a cycle, and is killed after any steps that do not save it again.
It is then restored from the window saved. Where the next cycle succeeds for the restored task and
would have succeeded for the killed one, it has the same results. -/
theorem recovers_exactly_once {seconds atSave savedAt now : Int64} {before since : List Step}
    {saved : Task Log Repository} (hbefore : Along step FilesPast (start seconds) before)
    (hsaves : ((start seconds).after before).Saves atSave savedAt saved)
    (hsince : Along step (Unsaved now) saved since)
    (hsize : (saved.after since).log.views.length < 2 ^ 64) :
    let killed := saved.after since
    ∃ restored, killed.restart seconds = .ok (restored, true) ∧
      ((killed.next now).Succeeds → (restored.next now).Succeeds →
        (killed.next now).SameResults (restored.next now)) := by
  intro killed
  obtain ⟨base, first, low₀, high₀, hsaved⟩ := hsaves.savedAs hbefore
  have hkept : saved.SinceSaved killed := .after hsince
  obtain ⟨low, high, hfollows⟩ := Chronicle.Follows.run hsaved.conserved
    (hsaved.mirrored.along_continues hsince)
  have hkilled : killed.MirroredBy (base.run (saved.told since)) := hsaved.mirrored.after since
  have hread := hfollows.before.length_le
  rw [hkilled.log_eq] at hread
  obtain ⟨state, hload, hagrees⟩ := SnapshotFile.load_save hsaved.conserved.accounts.tidy
    (hsaved.conserved.accounts.fits (Nat.lt_of_le_of_lt hread hsize)) seconds savedAt
  rw [← hsaved.file_eq, ← hkept.file_eq] at hload
  refine ⟨_, restart_of_load hload, fun hdone hdone' => ?_⟩
  refine sameResults_of_follows hsize hkept.profiles.echoes hfollows (hfollows.rebuilt hagrees)
    hkilled ⟨?_, hkilled.log_eq⟩ hdone hdone'
  exact congrArg (Window.mk · state) hsaved.seconds_eq

/-- A boost in the newsfeed is viewed twice, in a window of one second that has begun. -/
def viewedTwice : List Step :=
  [.change (.upsert { id := "a", location := .newsfeed, safeForAll := false }), .cycle 0 .nowhere 0,
    .change (.push [.filed ⟨1, 1⟩ "urn:boost:newsfeed:a", .filed ⟨3, 1⟩ "urn:boost:newsfeed:a"])]

/-- Both views are taken back by a cycle that is not saved, and the boost is viewed once more. -/
def lost : List Step :=
  [.cycle 1500 .nowhere 0, .change (.push [.filed ⟨1600, 1⟩ "urn:boost:newsfeed:a"])]

/-- The window saved: both views are counted. -/
def countedTwice : WindowState :=
  { totals := {(⟨.newsfeed, .general⟩, 2)}
    holdings := {("a", { segments := [⟨⟨.newsfeed, false⟩, ⟨1, 1⟩, ⟨3, 1⟩, 2⟩] })}
    low := some ⟨-1000, 0⟩
    high := some ⟨3, 1⟩ }

/-- The killed window has begun a new segment, the restored one goes on with the old one, and the
next cycle has the same results. -/
theorem recovers_exactly_once_lostTakeBack :
    let saved := (((start 1).after viewedTwice).cycle 4 .file 0).1
    let killed := saved.after lost
    let restored := { killed with engine := (Engine.start 1).restore countedTwice }
    killed.restart 1 = .ok (restored, true) ∧
      (restored.next 1600).engine.window.state.holdings["a"]? ≠
        (killed.next 1600).engine.window.state.holdings["a"]? ∧
      (killed.next 1600).SameResults (restored.next 1600) := by
  intro saved killed restored
  have hbefore : Along step FilesPast (start 1) viewedTwice := by decide
  have hsaves : ((start 1).after viewedTwice).Saves 4 0 saved := ⟨_, rfl, rfl⟩
  have hsince : Along step (Unsaved 1600) saved lost :=
    ⟨⟨by decide, rfl⟩, ⟨by decide, .refl _⟩, trivial⟩
  have hkept : saved.SinceSaved killed := .after hsince
  have hseconds : saved.engine.window.seconds = 1 := rfl
  have hfits : (Snapshot.capture saved.engine.window.state 1 0).Fits := by decide
  have hstate : (Snapshot.capture saved.engine.window.state 1 0).toState = .ok countedTwice := by
    decide
  have hload : killed.file.load 1 = .ok (some countedTwice) := by
    rw [hkept.file_eq, hsaves.file_eq, hseconds]
    exact SnapshotFile.load_save_of_toState hfits hstate
  have hrestart := restart_of_load hload
  obtain ⟨t, ht, hsame⟩ := recovers_exactly_once hbefore hsaves hsince (by decide)
  obtain ⟨rfl, -⟩ := Prod.mk.inj (Except.ok.inj (hrestart.symm.trans ht))
  have hdone : (killed.next 1600).Succeeds := ⟨_, rfl, by decide, by decide⟩
  have hdone' : (restored.next 1600).Succeeds := ⟨_, rfl, by decide, by decide⟩
  exact ⟨hrestart, by decide, hsame hdone hdone'⟩

end Scheduler.Task

end Pacing
