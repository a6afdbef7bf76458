import Pacing.Proofs.CycleContract
import Pacing.Proofs.RestingWindows
import Pacing.Store.Database

/-!
# Cycles that are run again

A cycle at the time of the one before it finds a window at rest, and the rankings that it offers are
those that are stored already. So as long as no ranking was refused, it does not matter how often a
cycle is run: every run after the first leaves the engine and the repository as they are and would
save the same window.
-/

namespace Pacing

/-- A repository in which a stored ranking stays until one of the same boost takes its place. -/
class RankingStore (ρ : Type) [BoostRepository ρ] where
  /-- The ranking is the latest of its boost and could be stored again. -/
  Holds : ρ → Ranking → Prop
  active_store {r r' : ρ} {x : Ranking} (h : BoostRepository.store r x = .ok r') :
    BoostRepository.active r' = BoostRepository.active r
  holds_store {r r' : ρ} {x : Ranking} (h : BoostRepository.store r x = .ok r') : Holds r' x
  holds_store_of_ne {r r' : ρ} {x y : Ranking} (h : BoostRepository.store r y = .ok r')
    (hne : y.boost ≠ x.boost) (hx : Holds r x) : Holds r' x
  store_of_holds {r : ρ} {x : Ranking} (h : Holds r x) : BoostRepository.store r x = .ok r

open RankingStore (Holds)

namespace Memory.Repository

instance : RankingStore Repository where
  Holds r x := r.isDown = false ∧ x.boost ∉ r.refused ∧ r.rankings[x.boost]? = some x
  active_store h := by
    obtain ⟨_, _, rfl⟩ := store_eq_ok_iff.mp h
    rfl
  holds_store h := by
    obtain ⟨hup, haccepted, rfl⟩ := store_eq_ok_iff.mp h
    exact ⟨hup, haccepted, by simp⟩
  holds_store_of_ne h hne hx := by
    obtain ⟨_, _, rfl⟩ := store_eq_ok_iff.mp h
    refine ⟨hx.1, hx.2.1, ?_⟩
    rw [Std.ExtTreeMap.getElem?_insert, if_neg (by simpa using hne)]
    exact hx.2.2
  store_of_holds {r x} h := by
    obtain ⟨hup, haccepted, hheld⟩ := h
    refine store_eq_ok_iff.mpr ⟨hup, haccepted, ?_⟩
    have hsame : r.rankings.insert x.boost x = r.rankings := by
      refine Std.ExtTreeMap.ext_getElem? fun {id} => ?_
      rw [Std.ExtTreeMap.getElem?_insert]
      split
      · rename_i hid
        rw [← Std.LawfulEqCmp.compare_eq_iff_eq.mp hid, hheld]
      · rfl
    rw [hsame]

end Memory.Repository

namespace Store

/-- A table has one row of a name. -/
theorem NamedRows.eq_of_name_eq {α : Type} {name : α → Cell} (t : NamedRows α name) {r s : α}
    (hs : s ∈ t.rows) (hr : r ∈ t.rows) (hsame : name s = name r) (hname : name r ≠ .null) :
    s = r := by
  have hsymm : Std.Symm fun a b : α => name a = name b → name b = .null :=
    ⟨fun a b h hba => hba ▸ h hba.symm⟩
  by_contra hne
  exact hname (t.distinct.forall hs hr hne hsame)

/-- Putting a row in its place where it is already changes nothing. -/
theorem NamedRows.upsert_eq_self {α : Type} {name : α → Cell} (t : NamedRows α name) {r : α}
    (hfind : t.find? (name r) = some r) (hname : name r ≠ .null) : t.upsert r = t := by
  have hmem : r ∈ t.rows := List.mem_of_find?_eq_some hfind
  have hunique : ∀ s ∈ t.rows, name s = name r → s = r :=
    fun s hs hsame => t.eq_of_name_eq hs hmem hsame hname
  have hrows : t.rows.map (fun s => if name s = name r then r else s) = t.rows := by
    refine (List.map_congr_left fun s hs => ?_).trans t.rows.map_id
    split
    · rename_i hsame
      exact (hunique s hs hsame).symm
    · rfl
  obtain ⟨rows, distinct⟩ := t
  unfold upsert
  rw [dif_pos ⟨r, hmem, rfl⟩]
  simpa only [replace, mk.injEq] using hrows

/-- Storing a ranking succeeds exactly if the table of rankings is there. -/
theorem Database.storeRanking_eq_ok_iff {db db' : Database} {x : Ranking} :
    db.storeRanking x = .ok db' ↔
      ∃ t, db.rankings = some t ∧ db' = { db with rankings := some (t.store x) } := by
  unfold storeRanking need
  cases db.rankings with
  | none => simp [Except.mapError, Except.map]
  | some t => simp [Except.mapError, Except.map, eq_comm]

instance : RankingStore Database where
  Holds db x := ∃ t, db.rankings = some t ∧ t.find? (.text x.boost) = some (.ofRanking x)
  active_store h := by
    obtain ⟨t, -, rfl⟩ := Database.storeRanking_eq_ok_iff.mp h
    rfl
  holds_store {db db' x} h := by
    obtain ⟨t, -, rfl⟩ := Database.storeRanking_eq_ok_iff.mp h
    refine ⟨_, rfl, (NamedRows.find?_upsert t (.ofRanking x) _).trans (if_pos rfl)⟩
  holds_store_of_ne {db db' x y} h hne hx := by
    obtain ⟨t, ht, rfl⟩ := Database.storeRanking_eq_ok_iff.mp h
    obtain ⟨t', ht', hfind⟩ := hx
    obtain rfl : t' = t := Option.some.inj (ht'.symm.trans ht)
    refine ⟨_, rfl, (NamedRows.find?_upsert t' (.ofRanking y) _).trans ?_⟩
    exact (if_neg fun heq => hne (Cell.text.inj heq)).trans hfind
  store_of_holds {db x} h := by
    obtain ⟨t, ht, hfind⟩ := h
    refine Database.storeRanking_eq_ok_iff.mpr ⟨t, ht, ?_⟩
    rw [RankingTable.store, NamedRows.upsert_eq_self t hfind (by simp [RankingRow.ofRanking]), ← ht]

end Store

namespace Engine

variable {ρ : Type} [BoostRepository ρ]

/-- Every boost of a roster is there under its own id. -/
theorem id_of_getElem?_rosterOf {boosts : List Boost} {id : String} {b : Boost}
    (h : (rosterOf boosts)[id]? = some b) : b.id = id := by
  induction boosts using List.reverseRecOn with
  | nil => simp [rosterOf] at h
  | append_singleton front c ih =>
    rw [rosterOf_concat, Std.ExtTreeMap.getElem?_insert] at h
    split at h
    · rename_i hid
      cases h
      exact Std.LawfulEqCmp.compare_eq_iff_eq.mp hid
    · exact ih h

/-- The rankings of the boosts of a roster. -/
def rankings (e : Engine) : List Ranking :=
  e.roster.toList.map fun entry => e.window.state.ranking entry.2

/-- No two rankings of a roster are of one boost. -/
theorem distinct_rankings {e : Engine} {boosts : List Boost} (h : e.roster = rosterOf boosts) :
    e.rankings.Pairwise (·.boost ≠ ·.boost) := by
  refine List.pairwise_map.mpr (Std.ExtTreeMap.distinct_keys_toList.imp_of_mem ?_)
  intro entry entry' hmem hmem' hkeys hboost
  rw [h] at hmem hmem'
  have hid : entry.2.id = entry.1 :=
    id_of_getElem?_rosterOf (Std.ExtTreeMap.mem_toList_iff_getElem?_eq_some.mp hmem)
  have hid' : entry'.2.id = entry'.1 :=
    id_of_getElem?_rosterOf (Std.ExtTreeMap.mem_toList_iff_getElem?_eq_some.mp hmem')
  exact hkeys (Std.LawfulEqCmp.compare_eq_iff_eq.mpr (hid.symm.trans (hboost.trans hid')))

/-! ## Offering rankings again -/

/-- Rankings of which none is refused are offered one by one and accepted. -/
theorem offered_of_accepted {r : ρ} {rankings : List Ranking}
    (haccepted : ∀ o ∈ (offer r rankings).1, o.2 = true) :
    (offer r rankings).1 = rankings.map (·, true) := by
  induction rankings generalizing r with
  | nil => rfl
  | cons x rest ih =>
    cases hstore : BoostRepository.store r x with
    | ok r' =>
      simp only [offer, hstore, List.forall_mem_cons, true_and] at haccepted ⊢
      rw [ih haccepted, List.map_cons]
    | error e => simp [offer, hstore] at haccepted

variable [RankingStore ρ]

/-- Offering rankings leaves the active boosts as they are. -/
theorem active_offer (r : ρ) (rankings : List Ranking) :
    BoostRepository.active (offer r rankings).2 = BoostRepository.active r := by
  refine offer_preserves (P := fun r' => BoostRepository.active r' = BoostRepository.active r)
    (fun x _ r₁ r₂ hstore hactive => ?_) rfl
  exact (RankingStore.active_store hstore).trans hactive

/-- A ranking is still held after rankings of other boosts are offered. -/
theorem holds_offer_of_ne {r : ρ} {x : Ranking} {rankings : List Ranking} (hx : Holds r x)
    (hne : ∀ y ∈ rankings, x.boost ≠ y.boost) : Holds (offer r rankings).2 x :=
  offer_preserves (P := (Holds · x))
    (fun y hy _ _ hstore => RankingStore.holds_store_of_ne hstore (hne y hy).symm) hx

/-- Rankings of different boosts are all held when none of them was refused. -/
theorem holds_offer {r : ρ} {rankings : List Ranking}
    (hdistinct : rankings.Pairwise (·.boost ≠ ·.boost))
    (haccepted : ∀ o ∈ (offer r rankings).1, o.2 = true) :
    ∀ x ∈ rankings, Holds (offer r rankings).2 x := by
  induction rankings generalizing r with
  | nil => simp
  | cons x rest ih =>
    obtain ⟨hx, hrest⟩ := List.pairwise_cons.mp hdistinct
    cases hstore : BoostRepository.store r x with
    | ok r' =>
      simp only [offer, hstore, List.forall_mem_cons, true_and] at haccepted ⊢
      exact ⟨holds_offer_of_ne (RankingStore.holds_store hstore) hx, ih hrest haccepted⟩
    | error e => simp [offer, hstore] at haccepted

/-- Rankings that are held already are accepted and change nothing. -/
theorem offer_of_holds {r : ρ} {rankings : List Ranking} (h : ∀ x ∈ rankings, Holds r x) :
    offer r rankings = (rankings.map (·, true), r) := by
  induction rankings with
  | nil => rfl
  | cons x rest ih =>
    obtain ⟨hx, hrest⟩ := List.forall_mem_cons.mp h
    simp only [offer, RankingStore.store_of_holds hx, ih hrest, List.map_cons]

/-! ## An engine at rest -/

variable {σ : Type} [ViewSource σ]

omit [RankingStore ρ] in
/-- A cycle that takes place offers the rankings of the engine that it leaves. -/
theorem cycle_offers {repository : ρ} {boosts : List Boost}
    (hactive : BoostRepository.active repository = .ok boosts) (e : Engine) (now : Int64)
    (log : σ) :
    let done := e.cycle now log repository
    done.engine.roster = rosterOf boosts ∧ (∃ report, done.report = .ok report) ∧
      (done.offered, done.repository) = offer repository done.engine.rankings := by
  obtain ⟨hwindow, -, hoffered, hrepository⟩ := cycle_of_active hactive e now log
  obtain ⟨hroster, report, hreport, -⟩ := report_of_active hactive e now log
  refine ⟨hroster, ⟨report, hreport⟩, ?_⟩
  rw [hoffered, hrepository, rankings, hroster, hwindow]

variable [HonestSource σ] [SteadySource σ] {e : Engine} {now : Int64} {log : σ} {repository : ρ}

/-- An engine has ranked the active boosts on a window at rest, and the repository has these
rankings. -/
structure AtRest (e : Engine) (now : Int64) (log : σ) (repository : ρ) : Prop where
  window : e.window.AtRest now log
  roster : ∃ boosts, BoostRepository.active repository = .ok boosts ∧ e.roster = rosterOf boosts
  held : ∀ x ∈ e.rankings, Holds repository x

/-- A cycle of an engine at rest offers the same rankings again and leaves the engine and the
repository as they are, at rest. -/
theorem AtRest.cycle (h : e.AtRest now log repository) :
    let done := e.cycle now log repository
    done.engine = e ∧ done.repository = repository ∧ done.offered = e.rankings.map (·, true) ∧
      (∃ report, done.report = .ok report) ∧ e.AtRest now done.log repository := by
  obtain ⟨hwindow, ⟨boosts, hactive, hroster⟩, hheld⟩ := h
  obtain ⟨hsame, -, -, -, hrest⟩ := hwindow.advance (BoostRepository.lookup repository)
  obtain ⟨hadvanced, hlog, -, -⟩ := cycle_of_active hactive e now log
  obtain ⟨hroster', hreport, hoffer⟩ := cycle_offers hactive e now log
  intro done
  have hengine : done.engine = e :=
    congrArg₂ Engine.mk (hadvanced.trans hsame) (hroster'.trans hroster.symm)
  rw [hengine, offer_of_holds hheld] at hoffer
  obtain ⟨hoffered, hrepository⟩ := Prod.mk.inj hoffer
  exact ⟨hengine, hrepository, hoffered, hreport, hlog ▸ hrest, ⟨boosts, hactive, hroster⟩, hheld⟩

/-- An engine is at rest after a cycle that takes place, if both scans are complete and no ranking
is refused. -/
theorem atRest_of_cycle {boosts : List Boost} {ingested pruned : Tally}
    (hactive : BoostRepository.active repository = .ok boosts)
    (hingest : (e.window.advance now log (BoostRepository.lookup repository)).ingest =
      .ok ingested)
    (hprune : (e.window.advance now log (BoostRepository.lookup repository)).prune = .ok pruned)
    (haccepted : ∀ o ∈ (e.cycle now log repository).offered, o.2 = true) :
    let done := e.cycle now log repository
    done.engine.AtRest now done.log done.repository ∧
      done.offered = done.engine.rankings.map (·, true) := by
  obtain ⟨hadvanced, hlog, -, -⟩ := cycle_of_active hactive e now log
  obtain ⟨hroster, -, hoffer⟩ := cycle_offers hactive e now log
  obtain ⟨hoffered, hrepository⟩ := Prod.mk.inj hoffer
  rw [hoffered] at haccepted
  refine ⟨⟨?_, ⟨boosts, ?_, hroster⟩, ?_⟩, hoffered.trans (offered_of_accepted haccepted)⟩
  · rw [hadvanced, hlog]
    exact Window.atRest_of_advance hingest hprune
  · rw [hrepository, active_offer, hactive]
  · rw [hrepository]
    exact holds_offer (distinct_rankings hroster) haccepted

end Engine

/-! ## Ticks of the scheduler -/

namespace Scheduler

/-- What the file holds once a window is saved. -/
def Target.filed (target : Target) (w : Window) (file : SnapshotFile) (savedAt : Int64) :
    SnapshotFile :=
  match target with
  | .file => .save w.state w.seconds savedAt
  | _ => file

/-- Of what is saved of one window only the last matters. -/
theorem Target.filed_filed (target : Target) (w : Window) (file : SnapshotFile)
    (savedAt savedAt' : Int64) :
    target.filed w (target.filed w file savedAt) savedAt' = target.filed w file savedAt' := by
  cases target <;> rfl

namespace Task

variable {σ ρ : Type} [ViewSource σ] [BoostRepository ρ]

/-- The task after a cycle that saves the window at a time of its own. -/
def tick (now : Int64) (target : Target) (t : Task σ ρ) (savedAt : Int64) : Task σ ρ :=
  (t.cycle now target savedAt).1

/-- After a tick with a report the file is the one that the target calls for, with the window after
the cycle. -/
theorem file_tick {t : Task σ ρ} {now : Int64} {report : CycleReport}
    (hreport : (t.engine.cycle now t.log t.repository).report = .ok report) (target : Target)
    (savedAt : Int64) :
    (tick now target t savedAt).file =
      target.filed (t.engine.cycle now t.log t.repository).engine.window t.file savedAt := by
  cases target <;> simp only [tick, cycle, hreport, Target.filed]

/-- When the active boosts cannot be fetched, a tick does no more than to empty the roster. -/
theorem tick_of_not_active {t : Task σ ρ} {cause : RepositoryError}
    (hactive : BoostRepository.active t.repository = .error cause) (now : Int64) (target : Target)
    (savedAt : Int64) :
    tick now target t savedAt = { t with engine := { t.engine with roster := ∅ } } := by
  simp only [tick, cycle, Engine.cycle_of_not_active hactive]

/-- Only the first such tick does anything. -/
theorem ticks_of_not_active {t : Task σ ρ} {cause : RepositoryError}
    (hactive : BoostRepository.active t.repository = .error cause) (now : Int64) (target : Target)
    (savedAt : Int64) (savedAts : List Int64) :
    savedAts.foldl (tick now target) (tick now target t savedAt) = tick now target t savedAt := by
  rw [tick_of_not_active hactive]
  generalize hidle : { t with engine := { t.engine with roster := ∅ } } = idle
  have htick (savedAt : Int64) : tick now target idle savedAt = idle := by
    subst hidle
    exact tick_of_not_active (by exact hactive) now target savedAt
  induction savedAts with
  | nil => rfl
  | cons next rest ih => rw [List.foldl_cons, htick, ih]

variable [HonestSource σ] [SteadySource σ] [RankingStore ρ]

/-- Ticks of an engine at rest leave the engine and the repository as they are, and the window saved
as of the last tick. -/
theorem ticks_of_atRest {t : Task σ ρ} {now : Int64} {target : Target} {file : SnapshotFile}
    {savedAt : Int64} (h : t.engine.AtRest now t.log t.repository)
    (hfile : t.file = target.filed t.engine.window file savedAt) (savedAts : List Int64) :
    let more := savedAts.foldl (tick now target) t
    more.engine = t.engine ∧ more.repository = t.repository ∧
      more.engine.AtRest now more.log more.repository ∧
      more.file = target.filed t.engine.window file (savedAts.getLastD savedAt) := by
  induction savedAts generalizing t savedAt with
  | nil => exact ⟨rfl, rfl, h, hfile⟩
  | cons next rest ih =>
    obtain ⟨hengine, hrepository, -, ⟨report, hreport⟩, hrest⟩ := h.cycle
    let ticked := tick now target t next
    have hengine' : ticked.engine = t.engine := hengine
    have hrepository' : ticked.repository = t.repository := hrepository
    have hticked : ticked.file = target.filed ticked.engine.window file next := by
      rw [file_tick hreport, hengine, hfile, Target.filed_filed, hengine']
    have hstill : ticked.engine.AtRest now ticked.log ticked.repository := by
      rw [hengine', hrepository']
      exact hrest
    rw [List.getLastD_cons]
    simpa only [List.foldl_cons, hengine', hrepository'] using ih hstill hticked

/-- Whatever the window, the log and the repository are like, once both scans of an advance are
complete, however many more advances to the same time read nothing and leave the window as it is.
And if no ranking is refused, however many more ticks leave the engine and the repository as the
first one did, offer what it offered and save what it would have saved at the time of the last. -/
theorem repeated_ticks_idle {t : Task σ ρ} {now : Int64} {ingested pruned : Tally}
    (hingest : (t.engine.window.advance now t.log (BoostRepository.lookup t.repository)).ingest =
      .ok ingested)
    (hprune : (t.engine.window.advance now t.log (BoostRepository.lookup t.repository)).prune =
      .ok pruned) :
    let lookup := BoostRepository.lookup t.repository
    let first := t.engine.window.advance now t.log lookup
    let done := t.engine.cycle now t.log t.repository
    (∀ n, let later := (Window.Advance.again now lookup)^[n + 1] first
      later.ingest = .ok {} ∧ later.prune = .ok {} ∧ later.window = first.window) ∧
    ((∀ o ∈ done.offered, o.2 = true) → ∀ (target : Target) (savedAt : Int64)
        (savedAts : List Int64),
      let once := tick now target t savedAt
      let more := savedAts.foldl (tick now target) once
      more.engine = once.engine ∧ more.repository = once.repository ∧
        more.file = (tick now target t (savedAts.getLastD savedAt)).file ∧
        (more.engine.cycle now more.log more.repository).offered = done.offered) := by
  intro lookup first done
  refine ⟨Window.again_of_atRest (Window.atRest_of_advance hingest hprune) lookup,
    fun haccepted target savedAt savedAts => ?_⟩
  intro once more
  cases hactive : BoostRepository.active t.repository with
  | error cause =>
    have hmore : more = once := ticks_of_not_active hactive now target savedAt savedAts
    rw [hmore]
    simp only [once, done, tick_of_not_active hactive, Engine.cycle_of_not_active hactive, and_self]
  | ok boosts =>
    obtain ⟨-, ⟨report, hreport⟩, -⟩ := Engine.cycle_offers hactive t.engine now t.log
    obtain ⟨hrest, hoffered⟩ := Engine.atRest_of_cycle hactive hingest hprune haccepted
    have hfile : once.file = target.filed once.engine.window t.file savedAt :=
      file_tick hreport target savedAt
    obtain ⟨hengine, hrepository, hrest', hmore⟩ := ticks_of_atRest hrest hfile savedAts
    obtain ⟨-, -, hoffered', -⟩ := hrest'.cycle
    refine ⟨hengine, hrepository, ?_, ?_⟩
    · rw [file_tick hreport]
      exact hmore
    · rw [hoffered', hengine]
      exact hoffered.symm

/-- A boost is viewed and the views are read; then one view is filed late and one under another
day. -/
def filedAmiss : List Step :=
  let tag := "urn:boost:newsfeed:a"
  [.change (.upsert { id := "a", location := .newsfeed, safeForAll := false }), .cycle 0 .nowhere 0,
    .change (.push [.filed ⟨1, 1⟩ tag, .filed ⟨3, 1⟩ tag]), .cycle 4 .nowhere 0,
    .change (.push [.filed ⟨2, 1⟩ tag, { cursor := ⟨5, 1⟩, tag, day := ⟨1970, 1, 2⟩ }])]

/-- The first tick reads the view under the other day, takes the late one back with the rest and
saves a window that has changed. Two more ticks add nothing. -/
theorem repeated_ticks_idle_filedAmiss :
    let t := (start 1).after filedAmiss
    let lookup := BoostRepository.lookup t.repository
    let first := t.engine.window.advance 1004 t.log lookup
    let done := t.engine.cycle 1004 t.log t.repository
    let once := tick 1004 .file t 10
    let more := [20, 30].foldl (tick 1004 .file) once
    first.ingest = .ok ⟨1, 1, 0, some ⟨5, 1⟩⟩ ∧ first.prune = .ok ⟨3, 3, 0, some ⟨3, 1⟩⟩ ∧
      (∀ o ∈ done.offered, o.2 = true) ∧
      (∀ n, let later := (Window.Advance.again 1004 lookup)^[n + 1] first
        later.ingest = .ok {} ∧ later.prune = .ok {} ∧ later.window = first.window) ∧
      more.engine = once.engine ∧ more.repository = once.repository ∧
        more.file = (tick 1004 .file t 30).file ∧
        (more.engine.cycle 1004 more.log more.repository).offered = done.offered := by
  intro t lookup first done once more
  have hingest : first.ingest = .ok ⟨1, 1, 0, some ⟨5, 1⟩⟩ := by decide
  have hprune : first.prune = .ok ⟨3, 3, 0, some ⟨3, 1⟩⟩ := by decide
  have haccepted : ∀ o ∈ done.offered, o.2 = true := by decide
  obtain ⟨hagain, hticks⟩ := repeated_ticks_idle hingest hprune
  exact ⟨hingest, hprune, haccepted, hagain, hticks haccepted .file 10 [20, 30]⟩

end Task

end Scheduler

end Pacing
