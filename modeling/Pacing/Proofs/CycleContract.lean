import Pacing.Proofs.TaskChronicle

/-!
# What a cycle leaves behind

A cycle meets failures of three weights. Without the active boosts it does not take place, and
nothing but the roster is touched. A scan that fails leaves the window as it was, and every active
boost is ranked on that. A ranking that is refused leaves its boost with the ranking from before and
stands in the way of no other.
-/

namespace Pacing

/-- A ranking has a rank for each audience that its boost competes for, and for no other. -/
theorem WindowState.get?_ranks_ranking (state : WindowState) (b : Boost) (a : Audience) :
    (state.ranking b).ranks.get? a =
      if b.Competes a then some (state.audienceRank b a).rank else none := by
  have hfold : (state.ranking b).ranks =
      b.audiences.foldl (fun ranks a => ranks.set a (state.audienceRank b a).rank) {} := by
    simp [ranking, audienceRanks, List.foldl_map, audienceRank]
  rw [hfold, Boost.audiences, audiencesFor]
  cases a with
  | general =>
    rw [if_pos b.competes_general]
    split <;> rfl
  | safe =>
    simp only [b.competes_safe_iff]
    split <;> rfl

/-- A boost is ranked by the views that it holds: as fewer than `2 ^ 64` were read, none is lost to
the word that the rank is computed from. -/
theorem Accounts.toNat_actual {state : WindowState} {readings : List Reading} {low high : Cursor}
    (h : Accounts state readings low high) (hsize : readings.length < 2 ^ 64) (b : Boost)
    (a : Audience) : (state.audienceRank b a).actual.toNat = state.viewsOf b.id :=
  UInt64.toNat_ofNat_of_lt' (h.viewsOf_lt hsize b.id)

namespace Memory.Repository

variable {r : Repository}

/-! ## Boosts under their ids -/

/-- Every boost is kept under its own id. -/
def Keyed (r : Repository) : Prop := ∀ id : String, ∀ b ∈ r.boosts[id]?, b.id = id

namespace Keyed

/-- A repository without boosts keeps each under its id. -/
theorem empty : ({} : Repository).Keyed := by
  intro id b hb
  simp at hb

/-- A boost that is put in is kept under its id. -/
theorem upsert (h : r.Keyed) (b : Boost) : (r.upsert b).Keyed := by
  intro id c hc
  simp only [Repository.upsert, Std.ExtTreeMap.getElem?_insert,
    Std.LawfulEqCmp.compare_eq_iff_eq] at hc
  split at hc
  · cases hc
    assumption
  · exact h id c hc

/-- Removing a boost leaves the others under their ids. -/
theorem remove (h : r.Keyed) (id : String) : (r.remove id).Keyed := by
  intro i c hc
  simp only [Repository.remove, Std.ExtTreeMap.getElem?_erase] at hc
  split at hc
  · cases hc
  · exact h i c hc

/-- Nothing that can happen to a repository puts a boost under another id. -/
theorem change {w : World} (h : w.repository.Keyed) (c : Change) :
    (w.change c).repository.Keyed := by
  cases c with
  | upsert b => exact h.upsert b
  | remove id => exact h.remove id
  | _ => exact h

/-- In whatever way a task has come about, every boost is kept under its own id. -/
theorem after {t : Scheduler.Task Log Repository} (h : t.repository.Keyed)
    (steps : List Scheduler.Task.Step) : (t.after steps).repository.Keyed := by
  induction steps generalizing t with
  | nil => exact h
  | cons a rest ih =>
    refine ih ?_
    cases a with
    | change c => exact change (w := t.world) h c
    | cycle now target savedAt =>
      have hboosts : (t.step (.cycle now target savedAt)).repository.boosts = t.repository.boosts :=
        boosts_cycle t.engine now t.log t.repository
      unfold Keyed
      rw [hboosts]
      exact h

/-- Active boosts are fetched in the order of their ids, each of them once. -/
theorem rising (h : r.Keyed) {boosts : List Boost} (hactive : r.active = .ok boosts) :
    boosts.Pairwise (·.id < ·.id) := by
  unfold active at hactive
  split at hactive
  · cases hactive
  · cases hactive
    refine Std.ExtTreeSet.ordered_toList.filterMap _ fun i j hij b hb c hc => ?_
    rw [h i b hb, h j c hc]
    exact compare_lt_iff_lt.mp hij

end Keyed

/-- A repository whose active boosts can be fetched is in reach. -/
theorem isDown_of_active {boosts : List Boost} (hactive : r.active = .ok boosts) :
    r.isDown = false := by
  unfold active at hactive
  split at hactive
  · cases hactive
  · rename_i hup
    simpa using hup

/-! ## Storing rankings -/

/-- The repository with several rankings stored, one after the other. -/
def storeAll (r : Repository) (rankings : List Ranking) : Repository :=
  { r with
    rankings := rankings.foldl (fun table ranking => table.insert ranking.boost ranking)
      r.rankings }

/-- A boost of which no ranking is stored keeps the one that it had. -/
theorem rankings_storeAll_of_not_mem {rankings : List Ranking} {id : String}
    (h : ∀ ranking ∈ rankings, ranking.boost ≠ id) (r : Repository) :
    (r.storeAll rankings).rankings[id]? = r.rankings[id]? := by
  induction rankings generalizing r with
  | nil => rfl
  | cons ranking rest ih =>
    obtain ⟨hne, hrest⟩ := List.forall_mem_cons.mp h
    refine (ih hrest { r with rankings := r.rankings.insert ranking.boost ranking }).trans ?_
    simp [Std.ExtTreeMap.getElem?_insert, Std.LawfulEqCmp.compare_eq_iff_eq, hne]

/-- A boost of which one ranking is stored has that one. -/
theorem rankings_storeAll_of_mem {rankings : List Ranking}
    (hdistinct : rankings.Pairwise (·.boost ≠ ·.boost)) {ranking : Ranking}
    (h : ranking ∈ rankings) (r : Repository) :
    (r.storeAll rankings).rankings[ranking.boost]? = some ranking := by
  induction rankings generalizing r with
  | nil => cases h
  | cons first rest ih =>
    obtain ⟨hfirst, hrest⟩ := List.pairwise_cons.mp hdistinct
    rcases List.mem_cons.mp h with rfl | h
    · refine (rankings_storeAll_of_not_mem (fun other hother => (hfirst other hother).symm)
        { r with rankings := r.rankings.insert ranking.boost ranking }).trans ?_
      simp
    · exact ih hrest h { r with rankings := r.rankings.insert first.boost first }

/-- Of the rankings that a repository in reach is offered it stores those that it does not
refuse. -/
theorem offer_eq (hup : r.isDown = false) (rankings : List Ranking) :
    Engine.offer r rankings =
      (rankings.map fun ranking => (ranking, decide (ranking.boost ∉ r.refused)),
        r.storeAll (rankings.filter (·.boost ∉ r.refused))) := by
  induction rankings generalizing r with
  | nil => rfl
  | cons ranking rest ih =>
    by_cases hrefused : ranking.boost ∈ r.refused
    · have hstore : BoostRepository.store r ranking = .error (.writeRejected ranking.boost) := by
        simp [BoostRepository.store, store, hrefused]
      simp [Engine.offer, hstore, ih hup, hrefused]
    · let stored : Repository := { r with rankings := r.rankings.insert ranking.boost ranking }
      have hstore : BoostRepository.store r ranking = .ok stored := by
        simp [BoostRepository.store, store, hrefused, hup, stored]
      have hrest := ih (r := stored) hup
      simp only [Engine.offer, hstore, hrest]
      simp [hrefused, stored, storeAll]

end Memory.Repository

namespace Engine

/-! ## The roster -/

/-- One more boost is entered into the roster last, and replaces one of the same id. -/
theorem rosterOf_concat (boosts : List Boost) (b : Boost) :
    rosterOf (boosts ++ [b]) = (rosterOf boosts).insert b.id b := by
  simp [rosterOf]

/-- Of boosts in the order of their ids the roster has every one under its id. -/
theorem getElem?_rosterOf_eq_some_iff {boosts : List Boost}
    (hrising : boosts.Pairwise (·.id < ·.id)) {id : String} {b : Boost} :
    (rosterOf boosts)[id]? = some b ↔ b ∈ boosts ∧ b.id = id := by
  induction boosts using List.reverseRecOn with
  | nil => simp [rosterOf]
  | append_singleton front c ih =>
    obtain ⟨hfront, -, hlast⟩ := List.pairwise_append.mp hrising
    have hnew : c.id ∉ front.map Boost.id := by
      intro hmem
      obtain ⟨b, hb, heq⟩ := List.mem_map.mp hmem
      exact lt_irrefl _ (heq ▸ hlast b hb c (List.mem_singleton_self c))
    simp only [rosterOf_concat, Std.ExtTreeMap.getElem?_insert,
      Std.LawfulEqCmp.compare_eq_iff_eq]
    by_cases hc : c.id = id
    · subst hc
      simp only [if_true, Option.some.injEq, List.mem_append, List.mem_singleton]
      constructor
      · rintro rfl
        exact ⟨.inr rfl, rfl⟩
      · rintro ⟨hb | rfl, heq⟩
        · exact absurd (List.mem_map.mpr ⟨b, hb, heq⟩) hnew
        · rfl
    · rw [if_neg hc, ih hfront]
      simp only [List.mem_append, List.mem_singleton]
      constructor
      · rintro ⟨hb, heq⟩
        exact ⟨.inl hb, heq⟩
      · rintro ⟨hb | rfl, heq⟩
        · exact ⟨hb, heq⟩
        · exact absurd heq hc

/-- Boosts in the order of their ids are the entries of their roster. -/
theorem toList_rosterOf {boosts : List Boost} (hrising : boosts.Pairwise (·.id < ·.id)) :
    (rosterOf boosts).toList = boosts.map fun b => (b.id, b) := by
  have hkeys : (rosterOf boosts).toList.Pairwise (·.1 < ·.1) :=
    Std.ExtTreeMap.ordered_keys_toList.imp compare_lt_iff_lt.mp
  have hirrefl : Std.Irrefl fun e f : String × Boost => e.1 < f.1 := ⟨fun e => lt_irrefl e.1⟩
  have hantisymm : Std.Antisymm fun e f : String × Boost => e.1 < f.1 :=
    ⟨fun e f hef hfe => absurd hef (lt_asymm hfe)⟩
  refine hkeys.eq_of_mem_iff (List.pairwise_map.mpr hrising) fun ⟨id, b⟩ => ?_
  rw [Std.ExtTreeMap.mem_toList_iff_getElem?_eq_some, getElem?_rosterOf_eq_some_iff hrising]
  simp only [List.mem_map, Prod.mk.injEq]
  constructor
  · rintro ⟨hb, rfl⟩
    exact ⟨b, hb, rfl, rfl⟩
  · rintro ⟨c, hc, rfl, rfl⟩
    exact ⟨hc, rfl⟩

/-- The roster of boosts with different ids has one entry for each. -/
theorem size_rosterOf {boosts : List Boost} (hrising : boosts.Pairwise (·.id < ·.id)) :
    (rosterOf boosts).size = boosts.length := by
  rw [← Std.ExtTreeMap.length_toList, toList_rosterOf hrising, List.length_map]

/-! ## The contract -/

variable {σ : Type}

/-- A cycle has ranked some boosts on the window that it left. -/
structure Cycle.Ranks (done : Cycle σ Memory.Repository) (repository : Memory.Repository)
    (boosts : List Boost) (report : CycleReport) : Prop where
  /-- The cycle took place. -/
  report_eq : done.report = .ok report
  /-- The boosts are met in the order of their ids. -/
  rising : boosts.Pairwise (·.id < ·.id)
  /-- One ranking of each boost is offered, and accepted unless the boost is refused. -/
  offered_eq : done.offered = boosts.map fun b =>
    (done.engine.window.state.ranking b, decide (b.id ∉ repository.refused))
  /-- A ranking has a rank for exactly the audiences that its boost competes for. -/
  competes : ∀ b ∈ boosts, ∀ a, (done.engine.window.state.ranking b).ranks.get? a =
    if b.Competes a then some (done.engine.window.state.audienceRank b a).rank else none
  /-- A ranking that is accepted is stored. -/
  stored : ∀ b ∈ boosts, b.id ∉ repository.refused →
    done.repository.rankings[b.id]? = some (done.engine.window.state.ranking b)
  /-- A boost that is not active or is refused keeps the ranking that it had. -/
  kept : ∀ id : String, id ∉ boosts.map Boost.id ∨ id ∈ repository.refused →
    done.repository.rankings[id]? = repository.rankings[id]?
  /-- Every offer is reported as one of the two outcomes. -/
  reported : report.written + report.failed = report.active
  /-- The active boosts are those of the roster. -/
  active_eq : report.active = done.engine.roster.size
  size_eq : done.engine.roster.size = boosts.length

variable [ViewSource σ] {e : Engine} {now : Int64} {log : σ}

/-- A cycle that takes place reports the size of its roster, and how many of its rankings were
accepted and how many refused. -/
theorem report_of_active {ρ : Type} [BoostRepository ρ] {repository : ρ} {boosts : List Boost}
    (hactive : BoostRepository.active repository = .ok boosts) (e : Engine) (now : Int64)
    (log : σ) :
    let done := e.cycle now log repository
    done.engine.roster = rosterOf boosts ∧
      ∃ report, done.report = .ok report ∧ report.active = (rosterOf boosts).size ∧
        report.written = done.offered.countP (·.2) ∧
        report.failed = done.offered.countP (!·.2) := by
  simp only [cycle, hactive]
  exact ⟨trivial, _, rfl, rfl, rfl, rfl⟩

/-- A cycle over a repository that keeps every boost under its own id ranks all that are active. -/
theorem ranks_of_active {repository : Memory.Repository} {boosts : List Boost}
    (hkeyed : repository.Keyed) (hactive : repository.active = .ok boosts) (e : Engine)
    (now : Int64) (log : σ) :
    ∃ report, (e.cycle now log repository).Ranks repository boosts report := by
  have hrising : boosts.Pairwise (·.id < ·.id) := hkeyed.rising hactive
  have hup : repository.isDown = false := Memory.Repository.isDown_of_active hactive
  have hfetched : BoostRepository.active repository = .ok boosts := hactive
  obtain ⟨hwindow, -, hoffered, hrepository⟩ := cycle_of_active hfetched e now log
  obtain ⟨hroster, report, hreport, hactives, hwritten, hfailed⟩ :=
    report_of_active hfetched e now log
  generalize e.cycle now log repository = done at *
  have hrankings : (rosterOf boosts).toList.map
      (fun entry => done.engine.window.state.ranking entry.2) =
        boosts.map done.engine.window.state.ranking := by
    rw [toList_rosterOf hrising, List.map_map]
    rfl
  rw [← hwindow, hrankings, Memory.Repository.offer_eq hup] at hoffered hrepository
  have hdistinct : (boosts.map done.engine.window.state.ranking).Pairwise (·.boost ≠ ·.boost) :=
    List.pairwise_map.mpr (hrising.imp fun hlt => ne_of_lt hlt)
  refine ⟨report, hreport, hrising, ?_, fun b _ a => ?_, fun b hb haccepted => ?_,
    fun id hid => ?_, ?_, ?_, ?_⟩
  · rw [hoffered, List.map_map]
    rfl
  · exact done.engine.window.state.get?_ranks_ranking b a
  · rw [hrepository]
    have hstored : done.engine.window.state.ranking b ∈
        (boosts.map done.engine.window.state.ranking).filter (·.boost ∉ repository.refused) :=
      List.mem_filter.mpr ⟨List.mem_map_of_mem hb, decide_eq_true haccepted⟩
    exact Memory.Repository.rankings_storeAll_of_mem (hdistinct.filter _) hstored repository
  · rw [hrepository]
    refine Memory.Repository.rankings_storeAll_of_not_mem (fun ranking hranking heq => ?_)
      repository
    obtain ⟨hmem, haccepted⟩ := List.mem_filter.mp hranking
    obtain ⟨b, hb, rfl⟩ := List.mem_map.mp hmem
    rcases hid with hinactive | hrefused
    · exact hinactive (List.mem_map.mpr ⟨b, hb, heq⟩)
    · exact of_decide_eq_true haccepted (heq ▸ hrefused)
  · have hoffers : done.offered.length = (rosterOf boosts).size := by
      rw [hoffered, size_rosterOf hrising, List.length_map, List.length_map]
    rw [hwritten, hfailed, hactives, ← hoffers, eq_comm]
    simpa using List.length_eq_countP_add_countP (fun offer : Ranking × Bool => offer.2)
      (l := done.offered)
  · rw [hactives, hroster]
  · rw [hroster, size_rosterOf hrising]

/-- Whatever the window, the log and the repository are like, a cycle for which the active boosts
cannot be fetched leaves the window and all rankings as they are and an empty roster. Any other
cycle, whether its scans fail or not, ranks every active boost on the window that they leave. -/
theorem cycle_contract (e : Engine) (now : Int64) (log : σ) {repository : Memory.Repository}
    (hkeyed : repository.Keyed) :
    let done := e.cycle now log repository
    (∀ cause, repository.active = .error cause →
      done.report = .error ⟨cause⟩ ∧ done.engine.window = e.window ∧ done.engine.roster = ∅ ∧
        done.repository = repository) ∧
    ∀ boosts, repository.active = .ok boosts →
      done.engine.window = (e.window.advance now log repository.lookup).window ∧
        ∃ report, done.Ranks repository boosts report := by
  intro done
  refine ⟨fun cause hactive => ?_, fun boosts hactive => ⟨?_, ?_⟩⟩
  · have hrefused : BoostRepository.active repository = .error cause := hactive
    simp [done, cycle_of_not_active hrefused]
  · have hfetched : BoostRepository.active repository = .ok boosts := hactive
    exact (cycle_of_active hfetched e now log).1
  · exact ranks_of_active hkeyed hactive e now log

/-- Three boosts are active, and the rankings of one of them will be refused. Another has a ranking
from an earlier cycle and has stopped being active. The next scan of new views will break off. -/
def refusing : List Scheduler.Task.Step :=
  [.change (.upsert { id := "d", location := .sidebar, safeForAll := false }),
    .cycle 1 .nowhere 0,
    .change (.deactivate "d"),
    .change (.upsert { id := "c", location := .newsfeed, safeForAll := false }),
    .change (.upsert { id := "a", location := .newsfeed, safeForAll := true }),
    .change (.upsert { id := "b", location := .sidebar, safeForAll := false }),
    .change (.refuse "b"),
    .change (.push [.filed ⟨3, 1⟩ "urn:boost:newsfeed:a"]),
    .change (.failNextAfter 0)]

/-- The cycle ranks the three in order, although its scan of new views fails. -/
theorem cycle_contract_refusing :
    let t := (Scheduler.Task.start 1).after refusing
    let done := t.engine.cycle 5 t.log t.repository
    let boosts : List Boost := [{ id := "a", location := .newsfeed, safeForAll := true },
      { id := "b", location := .sidebar, safeForAll := false },
      { id := "c", location := .newsfeed, safeForAll := false }]
    t.repository.Keyed ∧ t.repository.active = .ok boosts ∧
      (t.engine.window.advance 5 t.log t.repository.lookup).ingest =
        .error (.source .ingest .brokenOff) ∧
      done.engine.window = (t.engine.window.advance 5 t.log t.repository.lookup).window ∧
        ∃ report, done.Ranks t.repository boosts report := by
  have hkeyed : ((Scheduler.Task.start 1).after refusing).repository.Keyed :=
    Memory.Repository.Keyed.after .empty refusing
  exact ⟨hkeyed, rfl, rfl, (cycle_contract _ 5 _ hkeyed).2 _ rfl⟩

end Engine

end Pacing
