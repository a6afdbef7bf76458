import Mathlib

/-!
# Counting by cases that exclude each other

The elements of a list with one of several properties are as many as those with each of them
together, when no element has two.
-/

namespace Pacing

variable {α ι : Type} {l : List α}

/-- Elements with one of two properties that exclude each other are those of either kind. -/
theorem countP_or {P Q : α → Prop} [DecidablePred P] [DecidablePred Q]
    (hPQ : ∀ a ∈ l, P a → ¬Q a) :
    l.countP (fun a => P a ∨ Q a) = l.countP (fun a => P a) + l.countP (fun a => Q a) := by
  induction l with
  | nil => rfl
  | cons a rest ih =>
    have hrest := ih fun b hb => hPQ b (List.mem_cons_of_mem _ hb)
    simp only [List.countP_cons, hrest, decide_eq_true_eq]
    by_cases hP : P a
    · have hQ := hPQ a List.mem_cons_self hP
      simp [hP, hQ, Nat.add_right_comm]
    · simp [hP, Nat.add_assoc]

/-- Elements with one of several properties that exclude each other are those of every kind. -/
theorem countP_exists {kinds : List ι} {P : ι → α → Prop} [∀ i, DecidablePred (P i)]
    (hP : kinds.Pairwise fun i j => ∀ a ∈ l, P i a → ¬P j a) :
    l.countP (fun a => ∃ i ∈ kinds, P i a) = (kinds.map fun i => l.countP (P i ·)).sum := by
  induction kinds with
  | nil => simp
  | cons i rest ih =>
    obtain ⟨hi, hrest⟩ := List.pairwise_cons.mp hP
    rw [List.map_cons, List.sum_cons, ← ih hrest, ← countP_or]
    · simp
    · rintro a ha hPi ⟨j, hj, hPj⟩
      exact hi j hj a ha hPi hPj

end Pacing
