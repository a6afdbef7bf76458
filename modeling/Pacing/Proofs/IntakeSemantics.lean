import Pacing.Proofs.ScanSemantics

/-!
# What a complete intake has staged

An intake looks each boost up once and stages runs of views. After a complete intake the stage is
a summary of the views read, each taken as a reading under the repository's answers: the number of
views of every bucket, the run of every boost that is known and the boosts that are not.
-/

namespace Pacing

/-- The run that views of one boost at given cursors make, if they are counted and there are any. -/
def Segment.ofRun? (profile : Option Profile) (cursors : List Cursor) : Option Segment := do
  let p ← profile
  let first ← cursors.head?
  let last ← cursors.getLast?
  return ⟨p, first, last, cursors.length⟩

/-- Cursors in a row make a run from the first to the last that has as many views, if there are any
and their boost has a profile. -/
theorem Segment.ofRun?_eq_some_iff {p : Profile} {cursors : List Cursor} {run : Segment} :
    ofRun? (some p) cursors = some run ↔
      ∃ first last, cursors.head? = some first ∧ cursors.getLast? = some last ∧
        run = ⟨p, first, last, cursors.length⟩ := by
  simp only [ofRun?, Option.bind_eq_bind, Option.bind_some, Option.bind_eq_some_iff,
    Option.pure_def, Option.some.injEq]
  constructor
  · rintro ⟨first, hfirst, last, hlast, rfl⟩
    exact ⟨first, last, hfirst, hlast, rfl⟩
  · rintro ⟨first, last, hfirst, hlast, rfl⟩
    exact ⟨first, hfirst, last, hlast, rfl⟩

/-- One more view opens a run or extends it. -/
theorem Segment.ofRun?_concat (p : Profile) (cursors : List Cursor) (c : Cursor) :
    ofRun? (some p) (cursors ++ [c]) =
      match ofRun? (some p) cursors with
      | none => some (single p c)
      | some run => some (run.extend c) := by
  cases cursors with
  | nil => rfl
  | cons first rest =>
    have hlast := List.getLast?_eq_some_getLast (List.cons_ne_nil first rest)
    have hconcat : (first :: (rest ++ [c])).getLast? = some c := by
      rw [← List.cons_append, List.getLast?_concat]
    simp [ofRun?, hlast, hconcat, extend]

/-- No views make no run. -/
@[simp] theorem Segment.ofRun?_nil (profile : Option Profile) : ofRun? profile [] = none := by
  cases profile <;> rfl

/-- Views of a boost without a profile make no run. -/
@[simp] theorem Segment.ofRun?_none (cursors : List Cursor) : ofRun? none cursors = none := rfl

namespace Intake

/-- The places of the views of a boost among the views read. -/
def cursorsOf (views : List View) (id : String) : List Cursor :=
  (views.filter (·.boost? = some id)).map View.cursor

/-- One more view adds its cursor to those of its own boost. -/
theorem cursorsOf_concat (views : List View) (v : View) (id : String) :
    cursorsOf (views ++ [v]) id =
      if v.boost? = some id then cursorsOf views id ++ [v.cursor] else cursorsOf views id := by
  unfold cursorsOf
  split <;> simp_all

/-- A stage sums up the views read. -/
structure SumsUp (lookup : Lookup) (views : List View) (s : Intake) : Prop where
  rising : views.Pairwise (·.cursor < ·.cursor)
  tally_eq : s.tally =
    { events := views.length
      counted := views.countP fun v => (Reading.under lookup v).profile.isSome
      unresolved := views.countP fun v => (Reading.under lookup v).profile.isNone
      last := views.getLast?.map View.cursor }
  known_eq (id : String) : s.known[id]? =
    if ∃ v ∈ views, v.boost? = some id then some (profileOf lookup id) else none
  gained_eq (b : Bucket) : s.gained.getD b 0 =
    views.countP fun v => b ∈ (Reading.under lookup v).buckets
  runs_eq (id : String) : s.runs[id]? = Segment.ofRun? (profileOf lookup id) (cursorsOf views id)
  answered : ∀ v ∈ views, ∀ id ∈ v.boost?, ∃ boost, lookup id = .ok boost

variable {lookup : Lookup} {views : List View} {s s' : Intake} {v : View} {id : String}

/-- An intake that has noted nothing sums up no views. -/
theorem SumsUp.empty (lookup : Lookup) : SumsUp lookup [] {} where
  rising := List.Pairwise.nil
  tally_eq := rfl
  known_eq id := by simp
  gained_eq b := by simp
  runs_eq id := by simp [cursorsOf]
  answered := by simp

/-- A view that names no boost is skipped. -/
theorem SumsUp.skip (h : SumsUp lookup views s)
    (hpast : ∀ previous ∈ s.tally.last, previous < v.cursor) (hboost : v.boost? = none) :
    SumsUp lookup (views ++ [v])
      { s with tally := Tally.skip { s.tally with
          events := s.tally.events + 1, last := some v.cursor } } where
  rising := pairwise_concat_of_last h.rising (by simpa [h.tally_eq] using hpast)
  tally_eq := by simp [h.tally_eq, Tally.skip, Reading.under, hboost]
  known_eq id := by simp [h.known_eq, hboost, or_and_right, exists_or]
  gained_eq b := by simp [h.gained_eq, Reading.under, Reading.buckets, hboost]
  runs_eq id := by simp [h.runs_eq, cursorsOf_concat, hboost]
  answered := List.forall_mem_append.mpr ⟨h.answered, by simp [hboost]⟩

/-- A view of a boost that has been looked up is counted under the profile found, or skipped. -/
theorem SumsUp.assign (h : SumsUp lookup views s)
    (hpast : ∀ previous ∈ s.tally.last, previous < v.cursor) (hboost : v.boost? = some id)
    {known : Std.ExtTreeMap String (Option Profile)} {asked : List String}
    (hknown : ∀ i, known[i]? =
      if ∃ u ∈ views ++ [v], u.boost? = some i then some (profileOf lookup i) else none)
    (hlookup : ∃ boost, lookup id = .ok boost) :
    SumsUp lookup (views ++ [v])
      (Intake.assign
        { s with
          tally := { s.tally with events := s.tally.events + 1, last := some v.cursor }
          known, asked }
        id (profileOf lookup id) v.cursor) := by
  have hrising : (views ++ [v]).Pairwise (·.cursor < ·.cursor) :=
    pairwise_concat_of_last h.rising (by simpa [h.tally_eq] using hpast)
  have hanswered : ∀ u ∈ views ++ [v], ∀ i ∈ u.boost?, ∃ boost, lookup i = .ok boost :=
    List.forall_mem_append.mpr ⟨h.answered, by simpa [hboost] using hlookup⟩
  cases hprofile : profileOf lookup id with
  | none =>
    have hunder : Reading.under lookup v = ⟨v, none⟩ := by
      simp [Reading.under, hboost, hprofile]
    refine ⟨hrising, ?_, hknown, fun b => ?_, fun i => ?_, hanswered⟩
    · simp [Intake.assign, h.tally_eq, Tally.skip, hunder]
    · simp [Intake.assign, h.gained_eq, hunder, Reading.buckets]
    · by_cases hi : id = i
      · subst hi
        simp [Intake.assign, h.runs_eq, hprofile]
      · simp [Intake.assign, h.runs_eq, cursorsOf_concat, hboost, hi]
  | some p =>
    have hunder : Reading.under lookup v = ⟨v, some p⟩ := by
      simp [Reading.under, hboost, hprofile]
    refine ⟨hrising, ?_, hknown, fun b => ?_, fun i => ?_, hanswered⟩
    · simp [Intake.assign, h.tally_eq, Tally.count, hunder]
    · simp only [Intake.assign, getD_gain, h.gained_eq, List.countP_append, List.countP_singleton,
        hunder, Reading.buckets, Option.map_some, Option.getD_some, decide_eq_true_eq]
    · simp only [Intake.assign, Std.ExtTreeMap.getElem?_alter, cursorsOf_concat, hboost,
        Std.LawfulEqCmp.compare_eq_iff_eq, Option.some.injEq]
      by_cases hi : id = i
      · subst hi
        simp only [if_true, h.runs_eq, hprofile]
        refine Eq.trans ?_ (Segment.ofRun?_concat p (cursorsOf views id) v.cursor).symm
        cases Segment.ofRun? (some p) (cursorsOf views id) <;> rfl
      · simp [hi, h.runs_eq]

/-- The boosts looked up after one more view are those from before and the boost of the view. -/
theorem SumsUp.known_concat (h : SumsUp lookup views s) (hboost : v.boost? = some id) (i : String) :
    (if ∃ u ∈ views ++ [v], u.boost? = some i then some (profileOf lookup i) else none) =
      if id = i then some (profileOf lookup id) else s.known[i]? := by
  have hread : (∃ u ∈ views ++ [v], u.boost? = some i) ↔
      (∃ u ∈ views, u.boost? = some i) ∨ id = i := by
    simp only [List.mem_append, List.mem_singleton, or_and_right, exists_or, exists_eq_left,
      hboost, Option.some.injEq]
  simp only [hread, h.known_eq]
  by_cases hi : id = i
  · simp [hi]
  · simp [hi]

/-- What is known of a boost is what a lookup finds. -/
theorem SumsUp.eq_profileOf (h : SumsUp lookup views s) {profile : Option Profile}
    (hknown : s.known[id]? = some profile) : profile = profileOf lookup id := by
  rw [h.known_eq] at hknown
  split at hknown
  · exact (Option.some.inj hknown).symm
  · cases hknown

/-- Every view that is noted without an error keeps the stage a summary of what was read. -/
theorem SumsUp.note (h : SumsUp lookup views s) (hnote : Intake.note lookup s v = .ok s') :
    SumsUp lookup (views ++ [v]) s' := by
  unfold Intake.note at hnote
  rw [show CampaignTag.resolve? v.tag = v.boost? from rfl] at hnote
  obtain ⟨tally, hobserve, hnote⟩ := bind_eq_ok_iff.mp hnote
  obtain ⟨hpast, rfl⟩ := Tally.observe_eq_ok_iff.mp hobserve
  cases hboost : v.boost? with
  | none =>
    simp only [hboost, pure, Except.pure, Except.ok.injEq] at hnote
    rw [← hnote]
    exact h.skip hpast hboost
  | some id =>
    simp only [hboost] at hnote
    cases hknown : s.known[id]? with
    | some profile =>
      simp only [hknown, pure, Except.pure, Except.ok.injEq] at hnote
      have hprofile := h.eq_profileOf hknown
      rw [← hnote, hprofile]
      have hread : ∃ u ∈ views, u.boost? = some id := by
        by_contra hunread
        simp [h.known_eq, hunread] at hknown
      obtain ⟨u, hu, huboost⟩ := hread
      refine h.assign hpast hboost (fun i => ?_) (h.answered u hu id huboost)
      rw [h.known_concat hboost]
      split
      · rename_i hi
        rw [← hi, hknown, hprofile]
      · rfl
    | none =>
      cases hlookup : lookup id with
      | error e => simp [hknown, hlookup] at hnote
      | ok boost =>
        simp only [hknown, hlookup, pure, Except.pure, Except.ok.injEq] at hnote
        have hprofile : boost.map Boost.profile = profileOf lookup id := by
          simp [profileOf, hlookup]
        rw [← hnote, hprofile]
        refine h.assign hpast hboost (fun i => ?_) ⟨boost, hlookup⟩
        rw [h.known_concat hboost, Std.ExtTreeMap.getElem?_insert]
        simp only [Std.LawfulEqCmp.compare_eq_iff_eq]

/-- Views that are all noted are summed up. -/
theorem sumsUp_of_readWhile (hread : readWhile (Intake.note lookup) {} views = (s, none)) :
    SumsUp lookup views s := by
  simpa using readWhile_relates (fun h hnote => SumsUp.note h hnote) (SumsUp.empty lookup) hread

/-- A complete intake sums up the views of its scan. -/
theorem sumsUp_of_complete {scan : Scan}
    (hread : readScan .ingest (Intake.note lookup) {} scan = (s, none)) :
    SumsUp lookup scan.views s :=
  sumsUp_of_readWhile (readScan_eq_complete_iff.mp hread).2

/-- The boosts that an intake missed are those that it read a view of and that are not known. -/
theorem SumsUp.mem_missed_iff (h : SumsUp lookup views s) :
    id ∈ s.missed ↔ (∃ v ∈ views, v.boost? = some id) ∧ profileOf lookup id = none := by
  have hmem : id ∈ s.missed ↔ s.known[id]? = some none := by
    simp only [missed, List.mem_filterMap, Prod.exists,
      Std.ExtTreeMap.mem_toList_iff_getElem?_eq_some]
    constructor
    · rintro ⟨i, profile, hknown, hi⟩
      cases profile <;> simp_all
    · intro hknown
      exact ⟨id, none, hknown, by simp⟩
  rw [hmem, h.known_eq]
  split <;> simp_all

end Intake

end Pacing
