import Pacing.Proofs.RepeatedCycles
import Pacing.Proofs.RereadDoubles

/-!
# Rankings that are read back

A ranking is stored as text, and what is looked up is what the text is read as. The text keeps the
audiences apart, so that each rank is read back as if it stood alone, and a row takes the place of
the earlier row of its boost. So a ranking is lost or altered only where a single double is: when it
is no finite number and has no text, or when the quick reader of numbers takes its text for another
double.
-/

namespace Pacing

namespace PerAudience

/-- Ranks that are set one by one are those that they were taken from. -/
theorem foldl_set_toList {α : Type} (p : PerAudience α) :
    p.toList.foldl (fun q e => q.set e.1 e.2) {} = p := by
  obtain ⟨g, s⟩ := p
  cases g <;> cases s <;> rfl

/-- Ranks as they are read back once they are written; none if one of them is written as null. -/
def reread? (ranks : PerAudience Float) : Option (PerAudience Float) := do
  return ⟨← ranks.general.mapM Json.reread?, ← ranks.safe.mapM Json.reread?⟩

/-- Ranks are read back if each of them is. -/
theorem reread?_eq_some_iff {ranks ranks' : PerAudience Float} :
    ranks.reread? = some ranks' ↔
      ∀ a, (ranks.get? a).mapM Json.reread? = some (ranks'.get? a) := by
  obtain ⟨g, s⟩ := ranks
  obtain ⟨g', s'⟩ := ranks'
  have hboth : (∀ a, ((⟨g, s⟩ : PerAudience Float).get? a).mapM Json.reread? =
      some ((⟨g', s'⟩ : PerAudience Float).get? a)) ↔
        g.mapM Json.reread? = some g' ∧ s.mapM Json.reread? = some s' :=
    ⟨fun h => ⟨h .general, h .safe⟩, fun h a => by cases a <;> simp [get?, h]⟩
  rw [hboth]
  simp [reread?, Option.bind_eq_some_iff]

/-- Ranks are not read back if one of them is not. -/
theorem reread?_eq_none_iff {ranks : PerAudience Float} :
    ranks.reread? = none ↔ ∃ a x, ranks.get? a = some x ∧ Json.reread? x = none := by
  have hlost (rank : Option Float) : rank.mapM Json.reread? = none ↔
      ∃ x, rank = some x ∧ Json.reread? x = none := by
    cases rank <;> simp
  obtain ⟨g, s⟩ := ranks
  constructor
  · intro h
    by_cases hg : g.mapM Json.reread? = none
    · exact ⟨.general, (hlost g).mp hg⟩
    · obtain ⟨g', hg⟩ := Option.ne_none_iff_exists'.mp hg
      refine ⟨.safe, (hlost s).mp ?_⟩
      by_contra hs
      obtain ⟨s', hs⟩ := Option.ne_none_iff_exists'.mp hs
      simp [reread?, hg, hs] at h
  · rintro ⟨a, x, hx, hnone⟩
    have hread : ((⟨g, s⟩ : PerAudience Float).get? a).mapM Json.reread? = none :=
      (hlost _).mpr ⟨x, hx, hnone⟩
    rw [Option.eq_none_iff_forall_ne_some]
    intro ranks' h
    rw [reread?_eq_some_iff.mp h a] at hread
    cases hread

/-- Ranks are read back as they were if and only if each of them is. -/
theorem reread?_eq_self_iff {ranks : PerAudience Float} :
    ranks.reread? = some ranks ↔ ∀ a x, ranks.get? a = some x → Json.reread? x = some x := by
  rw [reread?_eq_some_iff]
  refine forall_congr' fun a => ?_
  cases ranks.get? a <;> simp

end PerAudience

namespace Store

open RankingRow

namespace RankingRow

/-- The text of ranks is read as an object with the number of each audience. -/
theorem parse?_ranksText (ranks : PerAudience Float) :
    Json.parse? (ranksText ranks) =
      some (Json.record (ranks.toList.map fun e => (e.1.name, Json.float e.2))) := by
  refine Json.Cuts.parse?_compact (.record .compact fun m hm => ?_)
  obtain ⟨e, -, rfl⟩ := List.mem_map.mp hm
  exact .float e.2

/-- The entries of the table that is read, in the order of its keys. -/
def named (ranks : PerAudience Float) : List (String × Float) :=
  ranks.toList.map fun e => (e.1.name, e.2)

/-- The ranks by name have their names in order already. -/
theorem toList_foldl_insert_named (ranks : PerAudience Float) :
    ((named ranks).foldl (fun map e => map.insert e.1 e.2)
      (∅ : Std.ExtTreeMap String Float)).toList = named ranks := by
  obtain ⟨g, s⟩ := ranks
  cases g with
  | none => cases s <;> rfl
  | some x =>
    cases s with
    | none => rfl
    | some y =>
      have hnames : named ⟨some x, some y⟩ = [("open", x), ("safe", y)] := rfl
      simp only [hnames, List.foldl_cons, List.foldl_nil]
      rfl

/-- The numbers of the text are read one by one. -/
theorem mapM_toFloat? (ranks : PerAudience Float) :
    (ranks.toList.map fun e => (e.1.name, Json.float e.2)).mapM
      (fun m => m.2.toFloat?.map (Prod.mk m.1)) = ranks.reread?.map named := by
  have hread (x : Float) : (Json.float x).toFloat? = Json.reread? x := rfl
  obtain ⟨g, s⟩ := ranks
  cases g with
  | none =>
    cases s with
    | none => rfl
    | some y =>
      cases hy : Json.reread? y <;>
        simp [named, PerAudience.toList, PerAudience.reread?, hread, hy]
  | some x =>
    cases s with
    | none =>
      cases hx : Json.reread? x <;>
        simp [named, PerAudience.toList, PerAudience.reread?, hread, hx]
    | some y =>
      cases hx : Json.reread? x <;> cases hy : Json.reread? y <;>
        simp [named, PerAudience.toList, PerAudience.reread?, hread, hx, hy]

/-- The numbers in the text of ranks are the ranks as they are read back. -/
theorem numbers?_ranksText (ranks : PerAudience Float) :
    numbers? (ranksText ranks) =
      ranks.reread?.map fun ranks' =>
        (named ranks').foldl (fun map e => map.insert e.1 e.2) ∅ := by
  have hread := mapM_toFloat? ranks
  simp only [numbers?, parse?_ranksText, Json.members?_record, Option.bind_eq_bind,
    Option.bind_some]
  rw [hread]
  cases ranks.reread? <;> rfl

/-- Ranks under the names of audiences are set one after another, without an error. -/
theorem foldlM_withRank (entries : List (Audience × Float)) (ranks : PerAudience Float) :
    (entries.map fun e => (e.1.name, e.2)).foldlM withRank ranks =
      .ok (entries.foldl (fun ranks e => ranks.set e.1 e.2) ranks) := by
  induction entries generalizing ranks with
  | nil => rfl
  | cons e rest ih =>
    have he : withRank ranks (e.1.name, e.2) = .ok (ranks.set e.1 e.2) := by
      simp [withRank, Audience.ofName?_name]
    rw [List.map_cons, List.foldlM_cons, he]
    exact ih (ranks.set e.1 e.2)

/-- Ranks are read back from their text one by one. -/
theorem readRanks_ranksText (ranks : PerAudience Float) :
    readRanks (ranksText ranks) =
      match ranks.reread? with
      | some ranks' => .ok ranks'
      | none => .error .unreadableRanks := by
  unfold readRanks
  rw [numbers?_ranksText]
  cases ranks.reread? with
  | none => rfl
  | some ranks' =>
    simp only [Option.map_some, toList_foldl_insert_named]
    rw [named, foldlM_withRank, PerAudience.foldl_set_toList]

end RankingRow

/-- What the row of a ranking gives back for it. -/
def RankingRow.readBack (r : Ranking) : Except RepositoryError (Option Ranking) :=
  match r.ranks.reread? with
  | some ranks => .ok (some ⟨r.boost, ranks⟩)
  | none => .error .unreadableRanks

/-- A ranking is read back with the ranks that are read back for the same audiences. -/
theorem RankingRow.readBack_eq_ok_iff {r : Ranking} {found : Option Ranking} :
    readBack r = .ok found ↔ ∃ r', found = some r' ∧ r'.boost = r.boost ∧
      ∀ a, (r.ranks.get? a).mapM Json.reread? = some (r'.ranks.get? a) := by
  unfold readBack
  constructor
  · intro h
    split at h
    · rename_i ranks hranks
      cases h
      exact ⟨⟨r.boost, ranks⟩, rfl, rfl, PerAudience.reread?_eq_some_iff.mp hranks⟩
    · cases h
  · rintro ⟨⟨boost, ranks⟩, rfl, rfl, hranks⟩
    rw [PerAudience.reread?_eq_some_iff.mpr hranks]

/-- The look-up of a ranking fails exactly if one of its ranks is read back as nothing. -/
theorem RankingRow.readBack_eq_error_iff {r : Ranking} {e : RepositoryError} :
    readBack r = .error e ↔ e = .unreadableRanks ∧
      ∃ a x, r.ranks.get? a = some x ∧ Json.reread? x = none := by
  unfold readBack
  rw [← PerAudience.reread?_eq_none_iff]
  cases r.ranks.reread? with
  | none => simp [eq_comm]
  | some ranks => simp

/-- How the answer to a look-up goes with the ranking that was stored. -/
structure GivesBack (answer : Except RepositoryError (Option Ranking)) (r : Ranking) : Prop where
  /-- It is the ranking if and only if each rank is read back as it was. -/
  same_iff : answer = .ok (some r) ↔ ∀ a x, r.ranks.get? a = some x → Json.reread? x = some x
  /-- It is an error if and only if some rank is read back as nothing. -/
  error_iff : ∀ e, answer = .error e ↔
    e = .unreadableRanks ∧ ∃ a x, r.ranks.get? a = some x ∧ Json.reread? x = none
  /-- Otherwise it has a rank for the same audiences, each as it is read back by itself. -/
  found : ∀ found, answer = .ok found → ∃ r', found = some r' ∧ r'.boost = r.boost ∧
    ∀ a, (r.ranks.get? a).mapM Json.reread? = some (r'.ranks.get? a)
  /-- It is the ranking when all ranks have few digits. -/
  of_isBrief :
    (∀ a x, r.ranks.get? a = some x → ∃ n, Json.Number.ofFloat? x = some n ∧ n.IsBrief) →
      answer = .ok (some r)
  /-- It is an error when some rank is infinite or NaN. -/
  of_not_finite : (∃ a x, r.ranks.get? a = some x ∧ x.isFinite = false) →
    answer = .error .unreadableRanks

/-- A row gives back the ranking that was written into it. -/
theorem givesBack_readBack (r : Ranking) : GivesBack (RankingRow.readBack r) r := by
  have hsame : RankingRow.readBack r = .ok (some r) ↔
      ∀ a x, r.ranks.get? a = some x → Json.reread? x = some x := by
    rw [← PerAudience.reread?_eq_self_iff, PerAudience.reread?_eq_some_iff,
      RankingRow.readBack_eq_ok_iff]
    simp
  refine ⟨hsame, fun e => RankingRow.readBack_eq_error_iff,
    fun found => RankingRow.readBack_eq_ok_iff.mp, fun hbrief => ?_, fun hlost => ?_⟩
  · refine hsame.mpr fun a x hx => ?_
    obtain ⟨n, hn, hbrief⟩ := hbrief a x hx
    exact Json.reread?_of_isBrief hn hbrief
  · obtain ⟨a, x, hx, hfinite⟩ := hlost
    exact RankingRow.readBack_eq_error_iff.mpr
      ⟨rfl, a, x, hx, Json.reread?_of_not_finite hfinite⟩

/-- The ranking of a boost that comes last. -/
def lastOf (rankings : List Ranking) (id : String) : Option Ranking :=
  (rankings.filter (·.boost = id)).getLast?

/-- The last ranking of a boost is of that boost. -/
theorem boost_of_lastOf {rankings : List Ranking} {id : String} {r : Ranking}
    (h : lastOf rankings id = some r) : r.boost = id := by
  have hr := List.mem_of_getLast? h
  simpa using (List.mem_filter.mp hr).2

/-- The last ranking of a boost is the one that was just added, or else the earlier one. -/
theorem lastOf_concat (rankings : List Ranking) (r : Ranking) (id : String) :
    lastOf (rankings ++ [r]) id = if r.boost = id then some r else lastOf rankings id := by
  by_cases hid : r.boost = id <;> simp [lastOf, hid]

namespace RankingTable

/-- A ranking that is stored is the one that is looked up for its boost, whatever was stored before;
no other boost is touched. -/
theorem lookup_store (t : RankingTable) (r : Ranking) (id : String) :
    (t.store r).lookup id = if r.boost = id then readBack r else t.lookup id := by
  have hfind : (t.store r).find? (.text id) =
      if r.boost = id then some (ofRanking r) else t.find? (.text id) := by
    refine (NamedRows.find?_upsert t (ofRanking r) (.text id)).trans ?_
    simp [ofRanking]
  by_cases hid : r.boost = id
  · subst hid
    rw [if_pos rfl] at hfind ⊢
    rw [lookup, hfind]
    change (readRanks (ranksText r.ranks)).bind
      (fun ranks => .ok (some (Ranking.mk r.boost ranks))) = _
    rw [readRanks_ranksText, readBack]
    cases r.ranks.reread? <;> rfl
  · rw [if_neg hid] at hfind ⊢
    rw [lookup, lookup, hfind]

/-- After several rankings are stored, a boost has the last one of its own. -/
theorem lookup_foldl_store (t : RankingTable) (rankings : List Ranking) (id : String) :
    (rankings.foldl store t).lookup id =
      (lastOf rankings id).elim (t.lookup id) readBack := by
  induction rankings using List.reverseRecOn with
  | nil => rfl
  | append_singleton before r ih =>
    rw [List.foldl_append, List.foldl_cons, List.foldl_nil, lookup_store, lastOf_concat]
    split
    · rfl
    · exact ih

end RankingTable

namespace Database

/-- Where the table of rankings is there, a ranking is looked up in it. -/
theorem ranking_of_table {db : Database} {t : RankingTable} (ht : db.rankings = some t)
    (id : String) : db.ranking id = t.lookup id := by
  rw [ranking, ht]
  rfl

/-- Where the table of rankings is there, storing rankings one after another succeeds. -/
theorem foldlM_storeRanking {db : Database} {t : RankingTable} (ht : db.rankings = some t)
    (rankings : List Ranking) :
    rankings.foldlM storeRanking db =
      .ok { db with rankings := some (rankings.foldl RankingTable.store t) } := by
  induction rankings generalizing db t with
  | nil =>
    rw [List.foldlM_nil, List.foldl_nil, ← ht]
    rfl
  | cons r rest ih =>
    rw [List.foldlM_cons, storeRanking_eq_ok_iff.mpr ⟨t, ht, rfl⟩]
    exact ih rfl

/-- Rankings are always accepted. A boost that was given none has what it had before, which is
nothing in a new database. A boost that was given some has the last of them, as far as its ranks
survive being written and read; the earlier ones and those of other boosts make no difference. -/
theorem rankings_read_back (db : Database) (rankings : List Ranking) :
    ∃ stored, rankings.foldlM storeRanking db.migrate = .ok stored ∧
      ∀ id, match lastOf rankings id with
        | none => stored.ranking id = db.migrate.ranking id ∧
            (db.rankings = none → stored.ranking id = .ok none)
        | some r => r.boost = id ∧ GivesBack (stored.ranking id) r := by
  have ht : db.migrate.rankings = some (db.rankings.getD {}) := rfl
  refine ⟨_, foldlM_storeRanking ht rankings, fun id => ?_⟩
  rw [ranking_of_table rfl, RankingTable.lookup_foldl_store, ranking_of_table ht]
  cases hlast : lastOf rankings id with
  | none =>
    refine ⟨rfl, fun hnew => ?_⟩
    rw [hnew]
    rfl
  | some r => exact ⟨boost_of_lastOf hlast, givesBack_readBack r⟩

/-- A ranking that lacks an audience of the one before it replaces it as a whole, next to the
ranking of another boost. -/
theorem rankings_read_back_lostAudience :
    ∃ stored, [⟨"a", ⟨some 2, some 0.5⟩⟩, ⟨"b", ⟨some 1.25, none⟩⟩,
        ⟨"a", ⟨some (1 / 3), none⟩⟩].foldlM storeRanking (migrate {}) = .ok stored ∧
      stored.ranking "a" = .ok (some ⟨"a", ⟨some (1 / 3), none⟩⟩) ∧
      stored.ranking "b" = .ok (some ⟨"b", ⟨some 1.25, none⟩⟩) ∧
      stored.ranking "c" = .ok none := by
  obtain ⟨stored, hstored, hback⟩ := rankings_read_back {}
    [⟨"a", ⟨some 2, some 0.5⟩⟩, ⟨"b", ⟨some 1.25, none⟩⟩, ⟨"a", ⟨some (1 / 3), none⟩⟩]
  have hthird : Json.reread? (1 / 3) = some (1 / 3) := by decide +kernel
  have hquarter : Json.reread? 1.25 = some 1.25 := by decide +kernel
  refine ⟨stored, hstored, ?_, ?_, ?_⟩
  · have ha : GivesBack (stored.ranking "a") ⟨"a", ⟨some (1 / 3), none⟩⟩ := by
      simpa [lastOf] using hback "a"
    refine ha.same_iff.mpr fun a x hx => ?_
    cases a <;> cases hx
    exact hthird
  · have hb : GivesBack (stored.ranking "b") ⟨"b", ⟨some 1.25, none⟩⟩ := by
      simpa [lastOf] using hback "b"
    refine hb.same_iff.mpr fun a x hx => ?_
    cases a <;> cases hx
    exact hquarter
  · have hc : lastOf [⟨"a", ⟨some 2, some 0.5⟩⟩, ⟨"b", ⟨some 1.25, none⟩⟩,
        ⟨"a", ⟨some (1 / 3), none⟩⟩] "c" = none := by simp [lastOf]
    have hnone := hback "c"
    rw [hc] at hnone
    exact hnone.2 rfl

/-- An infinite rank makes its ranking unreadable, and the rank of one view in eleven is read back
as the double after it. -/
theorem rankings_not_read_back_infiniteAndEleventh :
    ∃ stored, [⟨"a", ⟨some (1 / 0), some 0.5⟩⟩,
        ⟨"b", ⟨some (1 / 11), none⟩⟩].foldlM storeRanking (migrate {}) = .ok stored ∧
      stored.ranking "a" = .error .unreadableRanks ∧
      stored.ranking "b" = .ok (some ⟨"b", ⟨some (.ofBits 0x3fb745d1745d1747), none⟩⟩) ∧
      (1 / 11 : Float) = .ofBits 0x3fb745d1745d1746 := by
  have hinfinite : Json.reread? (1 / 0) = none := by decide +kernel
  have heleventh : Json.reread? (1 / 11) = some (.ofBits 0x3fb745d1745d1747) := by decide +kernel
  refine ⟨_, foldlM_storeRanking rfl _, ?_, ?_, by decide +kernel⟩
  · rw [ranking_of_table rfl, RankingTable.lookup_foldl_store]
    have hlast : lastOf [⟨"a", ⟨some (1 / 0), some 0.5⟩⟩, ⟨"b", ⟨some (1 / 11), none⟩⟩] "a" =
        some ⟨"a", ⟨some (1 / 0), some 0.5⟩⟩ := by simp [lastOf]
    rw [hlast, Option.elim_some]
    exact RankingRow.readBack_eq_error_iff.mpr ⟨rfl, .general, 1 / 0, rfl, hinfinite⟩
  · rw [ranking_of_table rfl, RankingTable.lookup_foldl_store]
    have hlast : lastOf [⟨"a", ⟨some (1 / 0), some 0.5⟩⟩, ⟨"b", ⟨some (1 / 11), none⟩⟩] "b" =
        some ⟨"b", ⟨some (1 / 11), none⟩⟩ := by simp [lastOf]
    rw [hlast, Option.elim_some]
    refine RankingRow.readBack_eq_ok_iff.mpr ⟨_, rfl, rfl, fun a => ?_⟩
    cases a with
    | general => simp [PerAudience.get?, heleventh]
    | safe => rfl

end Database

end Store
end Pacing
