import Mathlib
import Pacing.Window.State

/-!
# Folding changes into keyed tables

The window stages its changes by key and folds them into tables one after the other. The entry of
a key then depends only on the changes with that key, in their order. This file proves that for
the folds in use, so that later files reason about one bucket or one boost at a time.
-/

namespace Pacing

/-! ## Entries that count -/

section Entries

variable {κ α : Type} [DecidableEq κ]

/-- The entries that no later entry of the same key replaces. -/
def latest : List (κ × α) → List (κ × α)
  | [] => []
  | e :: rest => if ∃ f ∈ rest, f.1 = e.1 then latest rest else e :: latest rest

/-- An entry in front of others is the latest of its key if none of them has that key; it does not
change which of them are the latest. -/
theorem mem_latest_cons {entries : List (κ × α)} {e : κ × α} {k : κ} {a : α} :
    (k, a) ∈ latest (e :: entries) ↔
      (k, a) ∈ latest entries ∨ (∀ f ∈ entries, f.1 ≠ k) ∧ e = (k, a) := by
  rw [latest]
  split
  · rename_i hlater
    obtain ⟨f, hf, hsame⟩ := hlater
    refine ⟨.inl, fun h => h.resolve_right ?_⟩
    rintro ⟨hlast, rfl⟩
    exact hlast f hf hsame
  · rename_i hlast
    rw [List.mem_cons]
    constructor
    · rintro (rfl | h)
      · exact .inr ⟨fun f hf hsame => hlast ⟨f, hf, hsame⟩, rfl⟩
      · exact .inl h
    · rintro (h | ⟨-, rfl⟩)
      · exact .inr h
      · exact .inl rfl

/-- The latest entries are among the entries. -/
theorem latest_subset (entries : List (κ × α)) : latest entries ⊆ entries := by
  induction entries with
  | nil => exact List.Subset.refl _
  | cons e rest ih =>
    rw [latest]
    split
    · exact List.subset_cons_of_subset e ih
    · exact List.cons_subset_cons e ih

variable [Ord κ] [Std.TransOrd κ] [Std.LawfulEqOrd κ]

/-- After a fold of insertions a key has what its latest entry gives it, or without an entry what it
had before. -/
theorem getElem?_foldl_insert_iff {entries : List (κ × α)} {table : Std.ExtTreeMap κ α} {k : κ}
    {a : α} : (entries.foldl (fun t e => t.insert e.1 e.2) table)[k]? = some a ↔
      (k, a) ∈ latest entries ∨ (∀ e ∈ entries, e.1 ≠ k) ∧ table[k]? = some a := by
  induction entries generalizing table with
  | nil => simp [latest]
  | cons e rest ih =>
    obtain ⟨i, b⟩ := e
    rw [List.foldl_cons, ih, mem_latest_cons, List.forall_mem_cons, or_assoc]
    refine or_congr_right ?_
    by_cases hkey : i = k
    · simp [hkey]
    · simp [hkey, Std.ExtTreeMap.getElem?_insert, Std.LawfulEqCmp.compare_eq_iff_eq]

end Entries

/-! ## Folds by key -/

variable {α β κ : Type} [Ord κ] [Std.TransOrd κ]

/-- An empty table has no entries. -/
@[simp] theorem toList_empty : (∅ : Std.ExtTreeMap κ α).toList = [] :=
  Std.ExtTreeMap.toList_eq_nil_iff.mpr rfl

variable [Std.LawfulEqOrd κ] [DecidableEq κ]

/-- After a fold of alterations, the entry of a key has met exactly the alterations of that key. -/
theorem getElem?_foldl_alter (key : β → κ) (change : β → Option α → Option α) (changes : List β)
    (table : Std.ExtTreeMap κ α) (k : κ) :
    (changes.foldl (fun t c => t.alter (key c) (change c)) table)[k]? =
      (changes.filter (key · = k)).foldl (fun x c => change c x) table[k]? := by
  induction changes generalizing table with
  | nil => rfl
  | cons c rest ih =>
    rw [List.foldl_cons, ih, Std.ExtTreeMap.getElem?_alter]
    by_cases h : key c = k
    · simp [h]
    · simp [h, Std.LawfulEqCmp.compare_eq_iff_eq]

/-- Modifying the entries of several keys in a way that repeats without effect modifies each of
them once. -/
theorem getElem?_foldl_modify {f : α → α} (hf : ∀ x, f (f x) = f x) (keys : List κ)
    (table : Std.ExtTreeMap κ α) (k : κ) :
    (keys.foldl (fun t i => t.modify i f) table)[k]? =
      if k ∈ keys then table[k]?.map f else table[k]? := by
  induction keys generalizing table with
  | nil => simp
  | cons i rest ih =>
    rw [List.foldl_cons, ih, Std.ExtTreeMap.getElem?_modify]
    by_cases h : i = k
    · subst h
      cases table[i]? <;> simp [hf]
    · simp [h, Ne.symm h, Std.LawfulEqCmp.compare_eq_iff_eq]

/-- After a fold of insertions, the entry of a key is the last one inserted for it. -/
theorem getElem?_foldl_insert (entries : List (κ × α)) (table : Std.ExtTreeMap κ α) (k : κ) :
    (entries.foldl (fun t e => t.insert e.1 e.2) table)[k]? =
      (entries.filter (·.1 = k)).foldl (fun _ e => some e.2) table[k]? := by
  induction entries generalizing table with
  | nil => rfl
  | cons e rest ih =>
    rw [List.foldl_cons, ih, Std.ExtTreeMap.getElem?_insert]
    by_cases h : e.1 = k
    · simp [h]
    · simp [h, Std.LawfulEqCmp.compare_eq_iff_eq]

/-- After a fold of insertions that each combine the old value with their own, the value of a key
has met exactly the combinations of that key. -/
theorem getD_foldl_insert (combine : α → β → α) (default : α) (entries : List (κ × β))
    (table : Std.ExtTreeMap κ α) (k : κ) :
    (entries.foldl (fun t (i, x) => t.insert i (combine (t.getD i default) x)) table).getD k
        default =
      (entries.filter (·.1 = k)).foldl (fun y e => combine y e.2) (table.getD k default) := by
  induction entries generalizing table with
  | nil => rfl
  | cons e rest ih =>
    rw [List.foldl_cons, ih, Std.ExtTreeMap.getD_insert]
    by_cases h : e.1 = k
    · simp [h]
    · simp [h, Std.LawfulEqCmp.compare_eq_iff_eq]

/-- After such a fold of insertions, a key has an entry if it had one or one was inserted for it. -/
theorem getElem?_foldl_combine (combine : α → β → α) (default : α) (entries : List (κ × β))
    (table : Std.ExtTreeMap κ α) (k : κ) :
    (entries.foldl (fun t (i, x) => t.insert i (combine (t.getD i default) x)) table)[k]? =
      (entries.filter (·.1 = k)).foldl (fun y e => some (combine (y.getD default) e.2))
        table[k]? := by
  induction entries generalizing table with
  | nil => rfl
  | cons e rest ih =>
    rw [List.foldl_cons, ih, Std.ExtTreeMap.getElem?_insert]
    by_cases h : e.1 = k
    · simp [h, Std.ExtTreeMap.getD_eq_getD_getElem?]
    · simp [h, Std.LawfulEqCmp.compare_eq_iff_eq]

/-- The entries that a table lists under a key are the one entry that it has, if any. -/
theorem filter_toList (table : Std.ExtTreeMap κ α) (k : κ) :
    table.toList.filter (·.1 = k) = (table[k]?.map (Prod.mk k)).toList := by
  have hdistinct : table.toList.Pairwise fun a b => a.1 ≠ b.1 :=
    table.distinct_keys_toList.imp fun h he => h (by simp [he])
  have hmem (x : α) : (k, x) ∈ table.toList ↔ table[k]? = some x :=
    Std.ExtTreeMap.mem_toList_iff_getElem?_eq_some
  cases hk : table[k]? with
  | none =>
    simp only [Option.map_none, Option.toList_none, List.filter_eq_nil_iff, decide_eq_true_eq]
    rintro ⟨i, x⟩ hx rfl
    simp [(hmem x).mp hx] at hk
  | some x =>
    have hperm : (table.toList.filter (·.1 = k)).Perm [(k, x)] := by
      refine (List.perm_ext_iff_of_nodup ?_ (List.nodup_singleton _)).mpr ?_
      · exact (hdistinct.imp fun h he => h (by rw [he])).filter _
      · rintro ⟨i, y⟩
        simp only [List.mem_filter, decide_eq_true_eq, List.mem_singleton, Prod.mk.injEq]
        constructor
        · rintro ⟨hy, rfl⟩
          have := (hmem y).mp hy
          simp_all
        · rintro ⟨rfl, rfl⟩
          exact ⟨(hmem y).mpr hk, rfl⟩
    simpa using List.perm_singleton.mp hperm

/-- In whatever order the entries of a table are met, those of a key are the one entry that it has,
if any. -/
theorem filter_of_perm {table : Std.ExtTreeMap κ α} {entries : List (κ × α)}
    (h : entries.Perm table.toList) (k : κ) :
    entries.filter (·.1 = k) = table.toList.filter (·.1 = k) := by
  have hperm := h.filter (·.1 = k)
  rw [filter_toList] at hperm ⊢
  cases hk : table[k]? with
  | none => simpa [hk] using hperm
  | some x => simpa [hk] using hperm

/-- A fold of insertions that each combine the old value with their own takes the entries of a table
in any order. -/
theorem foldl_combine_of_perm {γ : Type} (combine : γ → α → γ) (default : γ)
    {table : Std.ExtTreeMap κ α} {entries : List (κ × α)} (h : entries.Perm table.toList)
    (start : Std.ExtTreeMap κ γ) :
    entries.foldl (fun t (i, x) => t.insert i (combine (t.getD i default) x)) start =
      table.toList.foldl (fun t (i, x) => t.insert i (combine (t.getD i default) x)) start := by
  refine Std.ExtTreeMap.ext_getElem? fun {k} => ?_
  rw [getElem?_foldl_combine, getElem?_foldl_combine, filter_of_perm h]

/-- In whatever order the entries of a table are met, those met before the entry of a key are of
other keys. -/
theorem filter_before_eq_nil {table : Std.ExtTreeMap κ α} {before after : List (κ × α)} {k : κ}
    {x : α} (hperm : (before ++ (k, x) :: after).Perm table.toList) :
    table[k]? = some x ∧ before.filter (·.1 = k) = [] := by
  have hk : table[k]? = some x :=
    Std.ExtTreeMap.mem_toList_iff_getElem?_eq_some.mp (hperm.mem_iff.mp (by simp))
  have hlength := (hperm.filter (·.1 = k)).length_eq
  rw [filter_toList, hk] at hlength
  refine ⟨hk, List.eq_nil_of_length_eq_zero ?_⟩
  simp only [List.filter_append, List.length_append, decide_true, List.filter_cons_of_pos,
    List.length_cons, Option.map_some, Option.toList_some, List.length_nil] at hlength
  omega

omit [DecidableEq κ] in
/-- Tables that agree on some keys list the same entries under these keys, in the same order. -/
theorem filter_toList_congr {table table' : Std.ExtTreeMap κ α} {p : κ → Prop} [DecidablePred p]
    (h : ∀ k, p k → table[k]? = table'[k]?) :
    table.toList.filter (p ·.1) = table'.toList.filter (p ·.1) := by
  have hirrefl : Std.Irrefl fun e f : κ × α => compare e.1 f.1 = .lt :=
    ⟨fun e => by simp [Std.ReflCmp.compare_self]⟩
  have hantisymm : Std.Antisymm fun e f : κ × α => compare e.1 f.1 = .lt :=
    ⟨fun e f hef hfe => by simp [Std.OrientedCmp.gt_of_lt hef] at hfe⟩
  refine (table.ordered_keys_toList.filter _).eq_of_mem_iff (table'.ordered_keys_toList.filter _)
    fun ⟨k, x⟩ => ?_
  simp only [List.mem_filter, Std.ExtTreeMap.mem_toList_iff_getElem?_eq_some, decide_eq_true_eq]
  exact and_congr_left fun hk => by rw [h k hk]

/-- A table is rebuilt from its entries. -/
theorem foldl_insert_toList (table : Std.ExtTreeMap κ α) :
    table.toList.foldl (fun t e => t.insert e.1 e.2) ∅ = table := by
  refine Std.ExtTreeMap.ext_getElem? fun {k} => ?_
  have hfold := getElem?_foldl_insert table.toList (∅ : Std.ExtTreeMap κ α) k
  rw [filter_toList] at hfold
  rw [hfold]
  cases table[k]? <;> simp

end Pacing
