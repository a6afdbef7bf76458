import Pacing.Audience

/-!
# Campaign tags

A view carries a tag. Tags of the form `urn:boost:<location>:<id>` name a boost; all other tags
belong to someone else and resolve to no boost.
-/

namespace Pacing.CampaignTag

/-- What every tag of a boost begins with. -/
def scheme : List Char := ['u', 'r', 'n', ':', 'b', 'o', 'o', 's', 't', ':']

/-- What is left of a text after a leading part, if it has that part. -/
def after? : List Char → List Char → Option (List Char)
  | [], cs => some cs
  | _ :: _, [] => none
  | p :: ps, c :: cs => if p = c then after? ps cs else none

/-- The part of a text before its first colon and the part after it. -/
def splitColon? : List Char → Option (List Char × List Char)
  | [] => none
  | c :: cs => if c = ':' then some ([], cs) else (splitColon? cs).map fun (a, b) => (c :: a, b)

/-- Reads the id of a boost from the characters of a tag. An id is not empty and has no colon. -/
def boostId? (tag : List Char) : Option (List Char) := do
  let rest ← after? scheme tag
  let (location, id) ← splitColon? rest
  let _ ← Location.ofName? (String.ofList location)
  if id = [] ∨ ':' ∈ id then none else some id

/-- The id of the boost that a tag names. -/
def resolve? (tag : String) : Option String := (boostId? tag.toList).map String.ofList

/-- The tag that the views of a boost carry. -/
def build (location : Location) (id : String) : String :=
  String.ofList (scheme ++ location.name.toList ++ ':' :: id.toList)

/-- A leading part is followed by what is left. -/
theorem after?_eq_some_iff {p cs rest : List Char} : after? p cs = some rest ↔ cs = p ++ rest := by
  induction p generalizing cs with
  | nil => simp [after?, eq_comm]
  | cons a p ih =>
    cases cs with
    | nil => simp [after?]
    | cons c cs =>
      by_cases h : a = c
      · subst h
        simp [after?, ih]
      · simp only [after?, h, if_false, List.cons_append, List.cons.injEq, false_iff, reduceCtorEq]
        exact fun hc => h hc.1.symm

/-- A text splits at its first colon. -/
theorem splitColon?_eq_some_iff {cs a b : List Char} :
    splitColon? cs = some (a, b) ↔ cs = a ++ ':' :: b ∧ ':' ∉ a := by
  induction cs generalizing a with
  | nil => simp [splitColon?]
  | cons c cs ih =>
    by_cases h : c = ':'
    · subst h
      cases a with
      | nil => simp [splitColon?]
      | cons d a =>
        simp only [splitColon?, if_true, Option.some.injEq, Prod.mk.injEq, reduceCtorEq,
          List.cons_append, List.cons.injEq, List.mem_cons, false_and, false_iff, not_and, not_or]
        rintro ⟨rfl, _⟩ h
        exact absurd rfl h
    · cases a with
      | nil => simp [splitColon?, h]
      | cons d a =>
        simp only [splitColon?, h, if_false, Option.map_eq_some_iff, Prod.mk.injEq,
          List.cons_append, List.cons.injEq, Prod.exists, List.mem_cons, not_or]
        constructor
        · rintro ⟨x, y, hxy, ⟨rfl, rfl⟩, rfl⟩
          obtain ⟨hcs, hx⟩ := ih.mp hxy
          exact ⟨⟨rfl, hcs⟩, fun hc => h hc.symm, hx⟩
        · rintro ⟨⟨rfl, hcs⟩, _, ha⟩
          exact ⟨a, b, ih.mpr ⟨hcs, ha⟩, ⟨rfl, rfl⟩, rfl⟩

end Pacing.CampaignTag
