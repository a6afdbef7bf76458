import Pacing.Store.Cell

/-!
# Rows with names

The rows of a table in which no name occurs twice, oldest first. A new row takes the place of an
earlier one of its name, or else comes last. Only rows without a name can be several.
-/

namespace Pacing.Store

/-- Rows that differ in their names. -/
structure NamedRows (α : Type) (name : α → Cell) where
  /-- The rows, oldest first. -/
  rows : List α := []
  /-- Only rows without a name are alike in it. -/
  distinct : rows.Pairwise (fun r s => name r = name s → name s = .null) := by simp

namespace NamedRows

variable {α : Type} {name : α → Cell} (t : NamedRows α name)

/-- Whether a row has a name. -/
def Has (n : Cell) : Prop := ∃ s ∈ t.rows, name s = n

instance (n : Cell) : Decidable (t.Has n) := by unfold Has; infer_instance

/-- Adds a row whose name is new at the end. -/
def append (r : α) (h : t.Has (name r) → name r = .null) : NamedRows α name where
  rows := t.rows ++ [r]
  distinct := by
    refine List.pairwise_append.mpr ⟨t.distinct, by simp, fun s hs u hu heq => ?_⟩
    rw [List.mem_singleton.mp hu] at heq ⊢
    exact h ⟨s, hs, heq⟩

/-- Puts a row in place of the one of its name. -/
def replace (r : α) : NamedRows α name where
  rows := t.rows.map fun s => if name s = name r then r else s
  distinct := by
    refine List.pairwise_map.mpr (t.distinct.imp fun {a b} h => ?_)
    split <;> split <;> simp_all

/-- Adds a row; none when its name is taken. -/
def insert? (r : α) : Option (NamedRows α name) :=
  if h : t.Has (name r) → name r = .null then some (t.append r h) else none

/-- Puts a row in place of an earlier one of its name, or else at the end. -/
def upsert (r : α) : NamedRows α name :=
  if h : t.Has (name r) then t.replace r else t.append r fun h' => absurd h' h

/-- The row of a name. -/
def find? (n : Cell) : Option α := t.rows.find? (name · = n)

/-- The rows in the order of their names. -/
def sorted : List α := t.rows.mergeSort fun r s => (compare (name r) (name s)).isLE

/-- A row that is added under a new name is found by it, and the other rows as before. -/
theorem find?_append_singleton {rows : List α} {r : α} (n : Cell)
    (h : ¬∃ s ∈ rows, name s = name r) :
    (rows ++ [r]).find? (name · = n) = if name r = n then some r else rows.find? (name · = n) := by
  rw [List.find?_append]
  by_cases hn : name r = n
  · have hnone : rows.find? (name · = n) = none := by
      simp only [List.find?_eq_none, decide_eq_true_eq]
      exact fun s hs heq => h ⟨s, hs, heq.trans hn.symm⟩
    simp [hn, hnone]
  · simp [hn]

/-- A row that replaces one of its name is found by that name. -/
theorem find?_replace_self {rows : List α} {r : α} (h : ∃ s ∈ rows, name s = name r) :
    (rows.map fun s => if name s = name r then r else s).find? (name · = name r) = some r := by
  induction rows with
  | nil => simp at h
  | cons s rest ih =>
    by_cases hs : name s = name r
    · simp [hs]
    · simpa [hs] using ih (by simpa [hs] using h)

/-- A row that replaces one of its name changes nothing about what other names find. -/
theorem find?_replace_of_ne {r : α} {n : Cell} (rows : List α) (h : name r ≠ n) :
    (rows.map fun s => if name s = name r then r else s).find? (name · = n) =
      rows.find? (name · = n) := by
  induction rows with
  | nil => rfl
  | cons s rest ih => by_cases hs : name s = name r <;> simp [hs, h, List.find?_cons, ih]

/-- A row that is put into its place is found there, and no other name is touched. -/
theorem find?_upsert (r : α) (n : Cell) :
    (t.upsert r).find? n = if name r = n then some r else t.find? n := by
  unfold upsert
  split
  · rename_i h
    split
    · rename_i hn
      rw [← hn]
      exact find?_replace_self h
    · rename_i hn
      exact find?_replace_of_ne t.rows hn
  · rename_i h
    exact find?_append_singleton n h

end NamedRows

end Pacing.Store
