import Pacing.Proofs.CursorOrder
import Pacing.Proofs.Chronicle

/-!
# The chronicle of a rehearsal

A rehearsal moves a window in a world in memory. Told step by step it is a chronicle with the same
window and the same log, which also knows what was read. Views filed past the high watermark leave
the log up to there as it is.
-/

namespace Pacing.Memory

namespace Log

variable {high : Cursor}

/-- Filing a view past a cursor leaves the views up to there as they are. -/
private theorem filter_place {v : View} (hv : high < v.cursor) (views : List View) :
    (place v views).filter (·.cursor ≤ high) = views.filter (·.cursor ≤ high) := by
  have hpast : ¬v.cursor ≤ high := not_le.mpr hv
  induction views with
  | nil => simp [place, hpast]
  | cons w rest ih =>
    unfold place
    split
    · simp [List.filter_cons, hpast]
    · split
      · simp [List.filter_cons, ih]
      · rename_i hbefore hafter
        have hcursor := (eq_of_not_before hbefore hafter).2
        simp [hpast, ← hcursor]

/-- Views pushed past a cursor leave those up to it as they are. -/
theorem filter_pushAll {fresh : List View} (hfresh : ∀ v ∈ fresh, high < v.cursor) (log : Log) :
    (log.pushAll fresh).views.filter (·.cursor ≤ high) = log.views.filter (·.cursor ≤ high) := by
  induction fresh generalizing log with
  | nil => rfl
  | cons v rest ih =>
    refine (ih (fun u hu => hfresh u (List.mem_cons_of_mem _ hu)) (log.push v)).trans ?_
    exact filter_place (hfresh v List.mem_cons_self) log.views

end Log

/-- The views that a change files. -/
def Change.filed : Change → List View
  | .push views => views
  | _ => []

/-- A change that files views past a cursor leaves the views up to there as they are. -/
theorem World.filter_change {high : Cursor} {c : Change} (hfiled : ∀ v ∈ c.filed, high < v.cursor)
    (w : World) : (w.change c).log.views.filter (·.cursor ≤ high) =
      w.log.views.filter (·.cursor ≤ high) := by
  cases c with
  | push views => exact Log.filter_pushAll hfiled w.log
  | _ => rfl

namespace Rehearsal

/-- A step of a rehearsal as its chronicle tells it. -/
def tell (r : Rehearsal) : Step → Chronicle.Step Log
  | .change c => .log (r.change c).world.log
  | .advance now => .advance now r.world.repository.lookup
  | .restart seconds => .restart seconds

/-- The steps of a rehearsal as its chronicle tells them. -/
def told (r : Rehearsal) : List Step → List (Chronicle.Step Log)
  | [] => []
  | a :: rest => r.tell a :: told (r.step a) rest

/-- The steps of a rehearsal are told one after another. -/
theorem told_eq_retold (r : Rehearsal) (steps : List Step) :
    r.told steps = retold step tell r steps := by
  induction steps generalizing r with
  | nil => rfl
  | cons a rest ih => exact congrArg (r.tell a :: ·) (ih (r.step a))

/-- The chronicle of a rehearsal from its beginning. -/
def chronicle (seconds : Int64) (steps : List Step) : Chronicle Log :=
  (Chronicle.start seconds (start seconds).world.log).run ((start seconds).told steps)

/-- The views that a step files. -/
def Step.filed : Step → List View
  | .change (.push views) => views
  | _ => []

/-- Views are filed past the high watermark only. -/
def FilesPast (r : Rehearsal) (a : Step) : Prop :=
  ∀ high ∈ r.window.state.high, ∀ v ∈ a.filed, high < v.cursor

instance (r : Rehearsal) (a : Step) : Decidable (r.FilesPast a) := by
  unfold FilesPast
  infer_instance

/-- A chronicle that has the window and the log of a rehearsal. -/
structure MirroredBy (r : Rehearsal) (c : Chronicle Log) : Prop where
  window_eq : c.window = r.window
  log_eq : c.log = r.world.log

namespace MirroredBy

variable {r : Rehearsal} {c : Chronicle Log}

/-- A step of a rehearsal is mirrored by the step that is told. -/
theorem step (h : r.MirroredBy c) (a : Step) : (r.step a).MirroredBy (c.step (r.tell a)) := by
  obtain ⟨hwindow, hlog⟩ := h
  cases a with
  | change change => exact ⟨hwindow, rfl⟩
  | advance now =>
    simp only [Rehearsal.step, Rehearsal.advance, tell, Chronicle.step, Chronicle.advance, hwindow,
      hlog]
    exact ⟨rfl, rfl⟩
  | restart seconds =>
    simp only [Rehearsal.step, Rehearsal.restart, tell, Chronicle.step, Chronicle.restart, hwindow]
    cases (Snapshot.capture r.window.state r.window.seconds 0).toState with
    | error e => exact ⟨hwindow, hlog⟩
    | ok state => exact ⟨rfl, hlog⟩

/-- A run of a rehearsal is mirrored by the run that is told. -/
theorem run (h : r.MirroredBy c) (steps : List Step) :
    (r.run steps).MirroredBy (c.run (r.told steps)) := by
  rw [told_eq_retold]
  exact related_of_retold (R := MirroredBy) (fun _ _ a h => h.step a) h steps

/-- Filing views past the high watermark leaves what the chronicle has read as it is. -/
theorem settled (h : r.MirroredBy c) {a : Step} (ha : r.FilesPast a) : c.Settled (r.tell a) := by
  cases a with
  | change change =>
    intro high hhigh
    rw [h.window_eq] at hhigh
    rw [h.log_eq]
    refine World.filter_change (fun v hv => ha high hhigh v ?_) r.world
    cases change with
    | push views => exact hv
    | _ => cases hv
  | advance now => trivial
  | restart seconds => trivial

/-- Where views are filed past the high watermark only, the chronicle stays settled. -/
theorem along_settled (h : r.MirroredBy c) {steps : List Step}
    (hsteps : Along Rehearsal.step FilesPast r steps) :
    Along Chronicle.step Chronicle.Settled c (r.told steps) := by
  rw [told_eq_retold]
  exact hsteps.retold (R := MirroredBy) (fun _ _ a ha h => ⟨h.step a, h.settled ha⟩) h

end MirroredBy

/-- The chronicle of a rehearsal has its window and its log. -/
theorem mirroredBy_chronicle (seconds : Int64) (steps : List Step) :
    ((start seconds).run steps).MirroredBy (chronicle seconds steps) :=
  MirroredBy.run ⟨rfl, rfl⟩ steps

/-- The last step of a rehearsal is told last. -/
theorem told_concat (r : Rehearsal) (steps : List Step) (a : Step) :
    r.told (steps ++ [a]) = r.told steps ++ [(r.run steps).tell a] := by
  induction steps generalizing r with
  | nil => rfl
  | cons b rest ih => exact congrArg (r.tell b :: ·) (ih (r.step b))

end Rehearsal

end Pacing.Memory
