import Pacing.CampaignTag

/-!
# Tags and the boosts that they name

The colon that divides the parts of a tag also stands in its scheme, and an id may have any other
character. Still a tag names a boost in one way only: as the scheme, the name of a location, a colon
and the id. No two boosts that can be named share a tag.
-/

namespace Pacing

/-- A name is that of one location at most. -/
theorem Location.ofName?_eq_some_iff {name : String} {l : Location} :
    ofName? name = some l ↔ name = l.name := by
  constructor
  · intro h
    unfold ofName? at h
    split at h
    · rename_i hname
      cases h
      exact hname
    · split at h
      · rename_i hname
        cases h
        exact hname
      · cases h
  · rintro rfl
    exact ofName?_name l

/-- No two locations share a name. -/
theorem Location.name_inj {l l' : Location} : l.name = l'.name ↔ l = l' := by
  constructor
  · intro h
    have hname := ofName?_name l
    rw [h, ofName?_name] at hname
    exact (Option.some.inj hname).symm
  · rintro rfl
    rfl

/-- The name of a location has no colon, so it ends where a tag is split. -/
theorem Location.colon_not_mem_name (l : Location) : ':' ∉ l.name.toList := by
  cases l <;> decide

namespace CampaignTag

variable {l l' : Location}

/-- Behind the scheme, the first colon divides the name of the location from the id. -/
theorem splitColon?_name (l : Location) (id : List Char) :
    splitColon? (l.name.toList ++ ':' :: id) = some (l.name.toList, id) :=
  splitColon?_eq_some_iff.mpr ⟨rfl, l.colon_not_mem_name⟩

/-- The characters of a tag are read as an id exactly if they are the scheme, the name of a
location, a colon and that id, which is not empty and has no colon. -/
theorem boostId?_eq_some_iff {tag id : List Char} :
    boostId? tag = some id ↔
      (∃ l : Location, tag = scheme ++ (l.name.toList ++ ':' :: id)) ∧ id ≠ [] ∧ ':' ∉ id := by
  constructor
  · intro h
    unfold boostId? at h
    obtain ⟨rest, hscheme, h⟩ := Option.bind_eq_some_iff.mp h
    obtain ⟨⟨location, id'⟩, hsplit, h⟩ := Option.bind_eq_some_iff.mp h
    obtain ⟨l, hname, h⟩ := Option.bind_eq_some_iff.mp h
    split at h
    · cases h
    · rename_i hid
      cases h
      rw [not_or] at hid
      refine ⟨⟨l, ?_⟩, hid⟩
      have hlocation : location = l.name.toList := by
        rw [← Location.ofName?_eq_some_iff.mp hname, String.toList_ofList]
      rw [after?_eq_some_iff.mp hscheme, (splitColon?_eq_some_iff.mp hsplit).1, hlocation]
  · rintro ⟨⟨l, rfl⟩, hne, hcolon⟩
    have hscheme := after?_eq_some_iff.mpr (rfl : scheme ++ (l.name.toList ++ ':' :: id) = _)
    simp [boostId?, hscheme, splitColon?_name, Location.ofName?_name, hne, hcolon]

/-- The characters of a tag that is built. -/
theorem toList_build (l : Location) (id : String) :
    (build l id).toList = scheme ++ (l.name.toList ++ ':' :: id.toList) := by
  rw [build, String.toList_ofList, List.append_assoc]

/-- A tag is built from its parts. -/
theorem build_eq (l : Location) (id : String) :
    build l id = "urn:boost:" ++ l.name ++ ":" ++ id := by
  rw [← String.toList_inj, toList_build]
  simp [scheme]

/-- A tag names an id exactly if it is built of that id and some location, and the id is not empty
and has no colon. -/
theorem resolve?_eq_some_iff {tag id : String} :
    resolve? tag = some id ↔ (∃ l : Location, tag = build l id) ∧ id ≠ "" ∧ ':' ∉ id.toList := by
  have hread : resolve? tag = some id ↔ boostId? tag.toList = some id.toList := by
    rw [resolve?, Option.map_eq_some_iff]
    constructor
    · rintro ⟨cs, hcs, rfl⟩
      rwa [String.toList_ofList]
    · intro h
      exact ⟨id.toList, h, String.ofList_toList⟩
  have hbuilt (l : Location) : tag = build l id ↔
      tag.toList = scheme ++ (l.name.toList ++ ':' :: id.toList) := by
    rw [← toList_build, String.toList_inj]
  simp only [hread, boostId?_eq_some_iff, hbuilt, ne_eq, String.toList_eq_nil_iff]

/-- Tags are built in one way: the location ends at the first colon behind the scheme. -/
theorem build_inj {id id' : String} : build l id = build l' id' ↔ l = l' ∧ id = id' := by
  constructor
  · intro h
    have hrest : l.name.toList ++ ':' :: id.toList = l'.name.toList ++ ':' :: id'.toList := by
      rw [← String.toList_inj, toList_build, toList_build] at h
      exact List.append_cancel_left h
    have hsplit := splitColon?_name l id.toList
    rw [hrest, splitColon?_name, Option.some.injEq, Prod.mk.injEq, String.toList_inj,
      String.toList_inj, Location.name_inj] at hsplit
    exact ⟨hsplit.1.symm, hsplit.2.symm⟩
  · rintro ⟨rfl, rfl⟩
    rfl

/-- A tag that is built names the id that it is built of, or nothing: no other id fits it. -/
theorem resolve?_build (l : Location) (id : String) :
    resolve? (build l id) = if id ≠ "" ∧ ':' ∉ id.toList then some id else none := by
  split
  · rename_i hid
    exact resolve?_eq_some_iff.mpr ⟨⟨l, rfl⟩, hid⟩
  · rename_i hid
    rw [Option.eq_none_iff_forall_ne_some]
    intro id' h
    obtain ⟨⟨l', hbuilt⟩, hid'⟩ := resolve?_eq_some_iff.mp h
    rw [← (build_inj.mp hbuilt).2] at hid'
    exact hid hid'

/-- A tag names exactly the ids that stand behind the scheme, the name of a location and a colon,
are not empty and have no colon. So the tag that is built for a boost names the id of that boost or,
if the id is empty or has a colon, nothing; and tags that are built for different locations or
different ids differ. -/
theorem tag_names_one_boost :
    (∀ tag id : String, resolve? tag = some id ↔
      (∃ l : Location, tag = "urn:boost:" ++ l.name ++ ":" ++ id) ∧ id ≠ "" ∧ ':' ∉ id.toList) ∧
    (∀ (l : Location) (id : String),
      resolve? (build l id) = if id ≠ "" ∧ ':' ∉ id.toList then some id else none) ∧
    ∀ (l l' : Location) (id id' : String), build l id = build l' id' ↔ l = l' ∧ id = id' := by
  refine ⟨fun tag id => ?_, resolve?_build, fun l l' id id' => build_inj⟩
  simp only [resolve?_eq_some_iff, build_eq]

-- A colon in the id, and the name of a location that goes on.
example : resolve? "urn:boost:newsfeed:12:34" = none ∧ resolve? "urn:boost:sidebars:99" = none := by
  decide +kernel

end CampaignTag

end Pacing
