import Mathlib

/-!
# Runs of a system that takes steps

A property of steps holds along a run when each step has it at the state where it is taken. What
every such step preserves then holds at the end of the run. Another system may retell a run step by
step; what relates the two systems after every step then relates them after the run. Where steps can
fail, a run that succeeds is one of which every step does.
-/

namespace Pacing

/-! ## Steps that can fail -/

section Failing

variable {ε α β : Type} {b c : β}

/-- Two computations succeed one after the other if the second one does with what the first one
gives. -/
theorem bind_eq_ok_iff {x : Except ε α} {f : α → Except ε β} :
    (x >>= f) = .ok b ↔ ∃ a, x = .ok a ∧ f a = .ok b := by
  cases x with
  | error e => simp [bind, Except.bind]
  | ok a => simp [bind, Except.bind]

/-- To tell a failure in other words changes nothing about success. -/
theorem mapError_eq_ok_iff {ε' : Type} {f : ε → ε'} {x : Except ε α} {a : α} :
    x.mapError f = .ok a ↔ x = .ok a := by
  cases x <;> simp [Except.mapError]

/-- A run that can fail succeeds if its first step does and the run from there does. -/
theorem foldlM_cons_eq_ok_iff {f : β → α → Except ε β} {a : α} {as : List α} :
    (a :: as).foldlM f b = .ok c ↔ ∃ b', f b a = .ok b' ∧ as.foldlM f b' = .ok c := by
  rw [List.foldlM_cons, bind_eq_ok_iff]

end Failing

/-! ## Properties of steps along a run -/

variable {S A : Type} {step : S → A → S} {P Q : S → A → Prop} {s : S} {a : A} {as bs : List A}

/-- Every step of a run has a property, at the state in which it is taken. -/
def Along (step : S → A → S) (P : S → A → Prop) : S → List A → Prop
  | _, [] => True
  | s, a :: as => P s a ∧ Along step P (step s a) as

namespace Along

/-- A property of steps that can be decided can be decided along a run. -/
instance decidable [∀ s a, Decidable (P s a)] : (s : S) → (as : List A) →
    Decidable (Along step P s as)
  | _, [] => isTrue trivial
  | s, a :: as => @instDecidableAnd _ _ _ (decidable (step s a) as)

/-- A condition holds along two runs in a row if it holds along the one and then along the other. -/
theorem append_iff :
    Along step P s (as ++ bs) ↔ Along step P s as ∧ Along step P (as.foldl step s) bs := by
  induction as generalizing s with
  | nil => simp [Along]
  | cons a as ih => simp only [List.cons_append, Along, List.foldl_cons, ih, and_assoc]

/-- A weaker condition holds along every run along which the stronger one does. -/
theorem mono (hPQ : ∀ s a, P s a → Q s a) (h : Along step P s as) : Along step Q s as := by
  induction as generalizing s with
  | nil => trivial
  | cons a as ih => exact ⟨hPQ s a h.1, ih h.2⟩

/-- Two conditions hold together along a run if each of them does. -/
theorem and_iff :
    Along step (fun s a => P s a ∧ Q s a) s as ↔ Along step P s as ∧ Along step Q s as := by
  induction as generalizing s with
  | nil => simp [Along]
  | cons a as ih =>
    simp only [Along, ih]
    tauto

/-- What each step with the property preserves holds after the run. -/
theorem preserves {I : S → Prop} (hI : ∀ s a, P s a → I s → I (step s a))
    (h : Along step P s as) (hs : I s) : I (as.foldl step s) := by
  induction as generalizing s with
  | nil => exact hs
  | cons a as ih => exact ih h.2 (hI s a h.1 hs)

/-- What each step with the property preserves, and what then gives another property of the step,
gives that property along the run. -/
theorem derives {I : S → Prop} (hI : ∀ s a, P s a → I s → I (step s a) ∧ Q s a)
    (h : Along step P s as) (hs : I s) : Along step Q s as := by
  induction as generalizing s with
  | nil => trivial
  | cons a as ih =>
    obtain ⟨hnext, hQ⟩ := hI s a h.1 hs
    exact ⟨hQ, ih h.2 hnext⟩

end Along

/-! ## Runs that are retold -/

variable {T B : Type} {step' : T → B → T} {tell : S → A → B} {R : S → T → Prop}
  {Q' : T → B → Prop} {t : T}

/-- The steps of a run as another system tells them. -/
def retold (step : S → A → S) (tell : S → A → B) : S → List A → List B
  | _, [] => []
  | s, a :: as => tell s a :: retold step tell (step s a) as

/-- What relates a step to how it is told relates the ends of the two runs. -/
theorem related_of_retold (hR : ∀ s t a, R s t → R (step s a) (step' t (tell s a))) (h : R s t)
    (as : List A) : R (as.foldl step s) ((retold step tell s as).foldl step' t) := by
  induction as generalizing s t with
  | nil => exact h
  | cons a as ih => exact ih (hR s t a h)

/-- A property of the steps of a run gives one of the steps told. -/
theorem Along.retold
    (hR : ∀ s t a, P s a → R s t → R (step s a) (step' t (tell s a)) ∧ Q' t (tell s a))
    (h : Along step P s as) (hst : R s t) : Along step' Q' t (retold step tell s as) := by
  induction as generalizing s t with
  | nil => trivial
  | cons a as ih =>
    obtain ⟨hnext, hQ⟩ := hR s t a h.1 hst
    exact ⟨hQ, ih h.2 hnext⟩

end Pacing
