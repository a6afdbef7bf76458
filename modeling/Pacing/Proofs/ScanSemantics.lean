import Pacing.Proofs.Chronicle
import Pacing.Proofs.KeyedFolds

/-!
# What a complete scan leaves behind

Both scans of the window feed views one by one to a stage and stop at the first refusal. A relation
between the views read so far and the stage that each view keeps up therefore holds of the whole
scan. This file states that, together with the two things that every stage does: it insists on
rising cursors, and it adds views to buckets.
-/

namespace Pacing

/-- A relation between the views read and the stage holds after a complete reading, if it holds
before and every accepted view keeps it. -/
theorem readWhile_relates {σ : Type} {note : σ → View → Except ScanError σ}
    {Reads : List View → σ → Prop}
    (hstep : ∀ {read v s s'}, Reads read s → note s v = .ok s' → Reads (read ++ [v]) s')
    {read views : List View} {s s' : σ} (hs : Reads read s)
    (hread : readWhile note s views = (s', none)) : Reads (read ++ views) s' := by
  induction views generalizing read s with
  | nil =>
    simp only [readWhile, Prod.mk.injEq, and_true] at hread
    simpa [← hread] using hs
  | cons v rest ih =>
    simp only [readWhile] at hread
    split at hread
    · rename_i s₁ hnote
      have := ih (hstep hs hnote) hread
      simpa using this
    · simp at hread

/-- A scan is complete when the log gave all its views and each of them was accepted. -/
theorem readScan_eq_complete_iff {σ : Type} {phase : Phase} {note : σ → View → Except ScanError σ}
    {s s' : σ} {scan : Scan} :
    readScan phase note s scan = (s', none) ↔
      scan.failure = none ∧ readWhile note s scan.views = (s', none) := by
  unfold readScan
  split
  · rename_i s₁ e hread
    simp [hread]
  · rename_i s₁ hread
    simp only [hread, Prod.mk.injEq, Option.map_eq_none_iff, and_true]
    tauto

/-- A view is observed exactly when it lies past the one before it, and is then the last one. -/
theorem Tally.observe_eq_ok_iff {phase : Phase} {t t' : Tally} {c : Cursor} :
    t.observe phase c = .ok t' ↔
      (∀ previous ∈ t.last, previous < c) ∧
        t' = { t with events := t.events + 1, last := some c } := by
  unfold observe
  split
  · rename_i previous hlast
    split <;> simp_all [eq_comm]
  · simp_all [eq_comm]

/-- A view counts for everyone at its location, and at no other. -/
theorem Profile.general_mem_buckets_iff (p : Profile) {l : Location} :
    (⟨l, .general⟩ : Bucket) ∈ p.buckets ↔ p.location = l := by
  unfold buckets audiencesFor
  cases p.safeForAll <;> simp [eq_comm]

/-- Adding a view to buckets raises the number of each of them by one. -/
theorem getD_gain (gained : Std.ExtTreeMap Bucket Nat) (p : Profile) (b : Bucket) :
    (Intake.gain gained p).getD b 0 = gained.getD b 0 + if b ∈ p.buckets then 1 else 0 := by
  have hfold := getElem?_foldl_alter (fun b : Bucket => b) (fun _ n => some (n.getD 0 + 1))
    p.buckets gained b
  -- No bucket of a profile repeats, so a bucket is raised once or not at all.
  rw [List.filter_eq, p.nodup_buckets.count] at hfold
  rw [Std.ExtTreeMap.getD_eq_getD_getElem?, Std.ExtTreeMap.getD_eq_getD_getElem?]
  unfold Intake.gain
  rw [hfold]
  split <;> simp

/-- Views read in rising order, with one more past the last of them, are in rising order. -/
theorem pairwise_concat_of_last {read : List View} {v : View}
    (hread : read.Pairwise (·.cursor < ·.cursor))
    (hlast : ∀ previous ∈ read.getLast?.map View.cursor, previous < v.cursor) :
    (read ++ [v]).Pairwise (·.cursor < ·.cursor) := by
  refine List.pairwise_append.mpr ⟨hread, List.pairwise_singleton _ _, fun u hu w hw => ?_⟩
  rw [List.mem_singleton] at hw
  subst hw
  obtain ⟨front, newest, rfl⟩ := List.eq_nil_or_concat read |>.resolve_left (List.ne_nil_of_mem hu)
  have hnewest : newest.cursor < w.cursor := hlast _ (by simp)
  rw [List.concat_eq_append, List.mem_append, List.mem_singleton] at hu
  rcases hu with hu | rfl
  · have hlt : u.cursor < newest.cursor := by
      rw [List.concat_eq_append] at hread
      exact (List.pairwise_append.mp hread).2.2 u hu newest (List.mem_singleton_self _)
    simp only [Cursor.lt_iff_position] at *
    omega
  · exact hnewest

/-- Views in rising order are told by which they are. -/
theorem eq_of_rising {views views' : List View} (h : views.Pairwise (·.cursor < ·.cursor))
    (h' : views'.Pairwise (·.cursor < ·.cursor)) (hmem : ∀ v, v ∈ views ↔ v ∈ views') :
    views = views' := by
  have hirrefl : Std.Irrefl fun u v : View => u.cursor < v.cursor :=
    ⟨fun u => Int.lt_irrefl u.cursor.position⟩
  have hantisymm : Std.Antisymm fun u v : View => u.cursor < v.cursor :=
    ⟨fun u v huv hvu => absurd huv (Int.lt_asymm hvu)⟩
  exact h.eq_of_mem_iff h' fun v => hmem v

end Pacing
