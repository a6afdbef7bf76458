import Pacing.Proofs.UprightWindows
import Pacing.Proofs.WatermarkSafety

/-!
# What an accepted snapshot admits

Rebuilding a window checks the watermarks and every segment by itself. It does not look at how the
segments of a boost lie to each other or to the high watermark, nor whether a window that has not
begun has counters. This file states the order that a window keeps by itself, proves that a rebuilt
state is in that order exactly when the entries of the snapshot that count are, and that every
window which is in order stays so: then its segments can be told apart, no intake turns a segment
backwards and every later snapshot of it is accepted again.
-/

namespace Pacing

/-! ## Segments in order -/

/-- The segments of a holding are upright and lie one behind the other. -/
structure Holding.Orderly (h : Holding) (high : Cursor) : Prop extends h.Upright high where
  apart : h.segments.Pairwise (·.last < ·.first)

/-- The segments of a holding are told apart by the cursors that they span and by where they
begin. -/
structure Holding.Unambiguous (h : Holding) : Prop where
  segmentAt?_eq : ∀ s ∈ h.segments, ∀ c, s.Spans c → h.segmentAt? c = some s
  first_inj : ∀ s ∈ h.segments, ∀ t ∈ h.segments, s.first = t.first → s = t

/-- Every segment of a holding is still there in another one. It begins where it did, under the same
profile, and ends no earlier. -/
def Holding.GrowsTo (h h' : Holding) : Prop :=
  ∀ s ∈ h.segments, ∃ t ∈ h'.segments, t.first = s.first ∧ t.profile = s.profile ∧ s.last ≤ t.last

namespace Holding

variable {g g' : Holding} {run : Segment} {high high' : Cursor}

/-- A holding with the same segments has them still. -/
theorem GrowsTo.of_segments_eq (h : g'.segments = g.segments) : g.GrowsTo g' := fun s hs =>
  ⟨s, h ▸ hs, rfl, rfl, le_refl _⟩

/-- Taking views back leaves segments one behind the other. -/
theorem reduce_apart {start : Cursor} {n : Nat} {segments : List Segment}
    (h : segments.Pairwise (·.last < ·.first)) :
    (reduce start n segments).Pairwise (·.last < ·.first) := by
  induction segments with
  | nil => exact List.Pairwise.nil
  | cons s rest ih =>
    obtain ⟨hs, hrest⟩ := List.pairwise_cons.mp h
    unfold reduce
    split
    · split
      · exact hrest
      · exact List.pairwise_cons.mpr ⟨hs, hrest⟩
    · refine List.pairwise_cons.mpr ⟨?_, ih hrest⟩
      exact forall_mem_reduce (P := fun t => s.last < t.first) (fun _ ht _ => ht) hs

namespace Orderly

/-- A holding in order stays so below a higher watermark. -/
theorem raise (h : g.Orderly high) (hhigh : high ≤ high') : g.Orderly high' :=
  ⟨h.toUpright.raise hhigh, h.apart⟩

/-- Sealing leaves a holding in order. -/
theorem sealOff (h : g.Orderly high) : g.sealOff.Orderly high :=
  ⟨h.toUpright.sealOff, h.apart⟩

/-- A run past the high watermark lies behind all segments, or continues the newest one. -/
theorem append {held : Option Holding} (h : ∀ g ∈ held, g.Orderly high)
    (hrun : run.Upright high') (hpast : high < run.first) :
    ((held.getD {}).append run).Orderly high' ∧
      ∀ g ∈ held, g.GrowsTo ((held.getD {}).append run) := by
  have hupright := Upright.append (fun g hg => (h g hg).toUpright) hrun hpast
  cases held with
  | none => exact ⟨⟨hupright, by simp [Holding.append]⟩, by simp⟩
  | some g =>
    have hg := h g rfl
    obtain ⟨segments, isSealed⟩ := g
    obtain ⟨front, newest, rfl⟩ := List.eq_nil_or_concat' segments |>.resolve_left hg.nonempty
    have hbefore : ∀ s ∈ front ++ [newest], s.last < run.first := fun s hs =>
      lt_of_le_of_lt (hg.segments s hs).below hpast
    rw [Option.getD_some, Holding.append_concat] at hupright ⊢
    split
    · rename_i hjoin
      rw [if_pos hjoin] at hupright
      obtain ⟨hfront, -, hnewest⟩ := List.pairwise_append.mp hg.apart
      refine ⟨⟨hupright, ?_⟩, ?_⟩
      · refine List.pairwise_append.mpr ⟨hfront, List.pairwise_singleton _ _, fun s hs t ht => ?_⟩
        rw [List.mem_singleton.mp ht]
        exact hnewest s hs newest (by simp)
      · rintro _ ⟨⟩ s hs
        rcases List.mem_append.mp hs with hs | hs
        · exact ⟨s, by simp [hs], rfl, rfl, le_refl _⟩
        · rw [List.mem_singleton.mp hs]
          refine ⟨newest.join run, by simp, rfl, rfl, ?_⟩
          exact le_of_lt
            (lt_of_lt_of_le (hbefore newest (by simp)) hrun.forward)
    · rename_i hpush
      rw [if_neg hpush] at hupright
      refine ⟨⟨hupright, ?_⟩, ?_⟩
      · refine List.pairwise_append.mpr ⟨hg.apart, List.pairwise_singleton _ _, fun s hs t ht => ?_⟩
        rw [List.mem_singleton.mp ht]
        exact hbefore s hs
      · rintro _ ⟨⟩ s hs
        exact ⟨s, List.mem_append_left _ hs, rfl, rfl, le_refl _⟩

/-- Taking views back leaves a holding in order. -/
theorem takeBack (h : g.Orderly high) {start : Cursor} {n : Nat}
    (htake : g.takeBack? start n = some g') : g'.Orderly high := by
  refine ⟨h.toUpright.takeBack htake, ?_⟩
  unfold takeBack? at htake
  split at htake
  · cases htake
  · cases htake
    exact reduce_apart h.apart

/-- Segments in order can be told apart. -/
theorem unambiguous (h : g.Orderly high) : g.Unambiguous where
  segmentAt?_eq s hs c hspan := by
    unfold segmentAt?
    cases ht : g.segments.find? (·.Spans c) with
    | none => simpa [hspan] using List.find?_eq_none.mp ht s hs
    | some t =>
      have htspan : t.Spans c := by simpa using List.find?_some ht
      rw [Segment.eq_of_spans h.apart (List.mem_of_find?_eq_some ht) hs htspan hspan]
  first_inj s hs t ht hfirst := by
    have hspan : s.Spans s.first := ⟨le_refl _, (h.segments s hs).forward⟩
    have htspan : t.Spans s.first :=
      ⟨hfirst ▸ le_refl _, hfirst ▸ (h.segments t ht).forward⟩
    exact Segment.eq_of_spans h.apart hs ht hspan htspan

end Orderly

end Holding

/-! ## Windows in order -/

namespace WindowState

/-- The watermarks of a window are in order, and so are the segments of every boost. -/
structure InOrder (state : WindowState) (low high : Cursor) : Prop extends
    state.Between low high where
  holdings : ∀ id : String, ∀ h ∈ state.holdings[id]?, h.Orderly high

/-- A window that has not begun has no counters, and one that has begun is in order. -/
def Orderly (state : WindowState) : Prop :=
  (state.Unbegun ∧ state.holdings = ∅ ∧ ∀ b, state.total b = 0) ∨
    ∃ low high, state.InOrder low high

variable {state state' : WindowState} {low high : Cursor} {views : List View}

namespace InOrder

/-- A state in order is upright. -/
theorem upright (h : state.InOrder low high) : state.Upright low high :=
  ⟨h.low_eq, h.high_eq, h.low_le_high, fun id g hg => (h.holdings id g hg).toUpright⟩

/-- Committing an intake of views past the high watermark leaves a window in order. -/
theorem commitIntake (h : state.InOrder low high) {lookup : Lookup} {s : Intake}
    (hs : Intake.SumsUp lookup views s) (hpast : ∀ v ∈ views, high < v.cursor) :
    (state.commitIntake s).InOrder low (reach views high) := by
  have hupright := h.upright.commitIntake hs hpast
  refine ⟨⟨hupright.low_eq, hupright.high_eq, hupright.low_le_high⟩, fun id => ?_⟩
  refine state.forall_holding_commitIntake (fun g hg => hg.raise (start_le_reach hpast))
    (fun g hg => hg.sealOff) (fun run hrun held hheld => ?_) (h.holdings id)
  obtain ⟨hrun, hfirst⟩ := hs.upright_run hpast hrun
  exact (Holding.Orderly.append hheld hrun hfirst).1

/-- Committing an intake of views past the high watermark turns no segment backwards. -/
theorem growsTo_commitIntake (h : state.InOrder low high) {lookup : Lookup} {s : Intake}
    (hs : Intake.SumsUp lookup views s) (hpast : ∀ v ∈ views, high < v.cursor) (id : String) :
    ∀ g ∈ state.holdings[id]?, ∃ g' ∈ (state.commitIntake s).holdings[id]?, g.GrowsTo g' := by
  intro g hg
  obtain ⟨held, hsealed, horderly, hsame⟩ : ∃ held, (if id ∈ s.missed then
      state.holdings[id]?.map Holding.sealOff else state.holdings[id]?) = some held ∧
      held.Orderly high ∧ held.segments = g.segments := by
    have horderly := h.holdings id g hg
    rw [Option.mem_def] at hg
    split
    · exact ⟨g.sealOff, by rw [hg]; rfl, horderly.sealOff, rfl⟩
    · exact ⟨g, hg, horderly, rfl⟩
  rw [holding_commitIntake, hsealed]
  cases hruns : s.runs[id]? with
  | none => exact ⟨held, rfl, .of_segments_eq hsame⟩
  | some run =>
    obtain ⟨hrun, hfirst⟩ := hs.upright_run hpast hruns
    have hheld : ∀ g ∈ some held, g.Orderly high := by simpa using horderly
    have hgrows := (Holding.Orderly.append hheld hrun hfirst).2 held rfl
    exact ⟨_, rfl, fun t ht => hgrows t (hsame ▸ ht)⟩

/-- Committing a take-back of views up to the high watermark leaves a window in order. -/
theorem commitTakeBack (h : state.InOrder low high) {s : TakeBack}
    (hs : TakeBack.SumsUp state views s) (hbelow : ∀ v ∈ views, v.cursor ≤ high) :
    (state.commitTakeBack s).InOrder (reach views low) high := by
  have hupright := h.upright.commitTakeBack hs hbelow
  refine ⟨⟨hupright.low_eq, hupright.high_eq, hupright.low_le_high⟩, fun id => ?_⟩
  exact state.forall_holding_commitTakeBack (fun _ _ _ _ hg htake => hg.takeBack htake) s
    (h.holdings id)

/-- Nothing of the order is lost in a state that agrees. -/
theorem agrees (h : state.InOrder low high) (hagrees : state.Agrees state') :
    state'.InOrder low high := by
  have hupright := h.upright.agrees hagrees
  refine ⟨⟨hupright.low_eq, hupright.high_eq, hupright.low_le_high⟩, ?_⟩
  rw [hagrees.holdings_eq]
  exact h.holdings

variable {σ : Type} [ViewSource σ] {log : σ}

/-- A scan of new views leaves a window in order, and turns no segment backwards. -/
theorem ingest (h : state.InOrder low high) (hlog : Confined log) (now : Int64) (lookup : Lookup) :
    (∃ high', (Window.ingest state now log lookup).state.InOrder low high') ∧
      ∀ id : String, ∀ g ∈ state.holdings[id]?,
        ∃ g' ∈ (Window.ingest state now log lookup).state.holdings[id]?, g.GrowsTo g' := by
  rcases Window.ingest_cases hlog h.high_eq now lookup with hstate | ⟨views, s, hs, hviews, hstate⟩
  · rw [hstate]
    exact ⟨⟨high, h⟩, fun id g hg => ⟨g, hg, .of_segments_eq rfl⟩⟩
  · rw [hstate]
    have hpast : ∀ v ∈ views, high < v.cursor := fun v hv => (hviews v hv).1
    exact ⟨⟨_, h.commitIntake hs hpast⟩, h.growsTo_commitIntake hs hpast⟩

/-- A scan of expired views leaves a window in order. -/
theorem prune (h : state.InOrder low high) (hlog : Confined log) (start : Int64) :
    ∃ low', (Window.prune state start log).state.InOrder low' high := by
  rcases Window.prune_cases hlog h.toBetween start with hstate | ⟨views, s, hs, hviews, hstate⟩
  · rw [hstate]
    exact ⟨low, h⟩
  · rw [hstate]
    exact ⟨_, h.commitTakeBack hs fun v hv => (hviews v hv).2⟩

end InOrder

namespace Orderly

/-- A window that is in order or has nothing begins in order. -/
theorem begin {w : Window} (h : w.state.Orderly) (now : Int64) :
    ∃ low high, (w.begin now).InOrder low high := by
  rcases h with ⟨⟨-, hhigh⟩, hholdings, -⟩ | ⟨low, high, h⟩
  · refine ⟨.floor (w.startAt now), .floor (w.startAt now), ⟨?_, ?_, le_refl _⟩, ?_⟩
    · simp [Window.begin, hhigh]
    · simp [Window.begin, hhigh]
    · simp [Window.holdings_begin, hholdings]
  · rw [h.upright.begin_eq]
    exact ⟨low, high, h⟩

/-- A state in order is tidy. -/
theorem tidy (h : state.Orderly) : state.Tidy := by
  rcases h with ⟨hwatermarks, hholdings, -⟩ | ⟨low, high, h⟩
  · exact ⟨.inl hwatermarks, by simp [hholdings], by simp [hholdings], by simp [hholdings]⟩
  · exact h.upright.tidy

/-- The segments of every boost can be told apart. -/
theorem unambiguous (h : state.Orderly) (id : String) :
    ∀ g ∈ state.holdings[id]?, g.Unambiguous := by
  rcases h with ⟨-, hholdings, -⟩ | ⟨low, high, h⟩
  · simp [hholdings]
  · exact fun g hg => (h.holdings id g hg).unambiguous

/-- A state that agrees with one in order is in order. -/
theorem agrees (h : state.Orderly) (hagrees : state.Agrees state') : state'.Orderly := by
  rcases h with ⟨⟨hlow, hhigh⟩, hholdings, htotals⟩ | ⟨low, high, h⟩
  · refine .inl ⟨⟨hagrees.low_eq.trans hlow, hagrees.high_eq.trans hhigh⟩,
      hagrees.holdings_eq.trans hholdings, fun b => ?_⟩
    rw [hagrees.total_eq, htotals]
  · exact .inr ⟨low, high, h.agrees hagrees⟩

/-- Whenever a window in order is saved, it is rebuilt, and is in order again. -/
theorem rebuild (h : state.Orderly) (seconds savedAt : Int64) :
    ∃ restored, (Snapshot.capture state seconds savedAt).toState = .ok restored ∧
      state.Agrees restored ∧ restored.Orderly := by
  obtain ⟨restored, hrestored, hagrees⟩ := Snapshot.toState_capture h.tidy seconds savedAt
  exact ⟨restored, hrestored, hagrees, h.agrees hagrees⟩

variable {σ : Type} [ViewSource σ]

/-- No intake turns a segment backwards. -/
theorem growsTo_ingest {w : Window} (h : w.state.Orderly) {log : σ} (hlog : Confined log)
    (now : Int64) (lookup : Lookup) (id : String) : ∀ g ∈ w.state.holdings[id]?,
      ∃ g' ∈ (Window.ingest (w.begin now) now log lookup).state.holdings[id]?, g.GrowsTo g' := by
  obtain ⟨low, high, hbegun⟩ := h.begin now
  rw [← w.holdings_begin now]
  exact (hbegun.ingest hlog now lookup).2 id

/-- A move leaves a window in order. -/
theorem move (h : state.Orderly) (m : Window.Move σ) : (state.move m).Orderly := by
  obtain ⟨low, high, hbegun⟩ := begin (w := { seconds := m.seconds, state }) h m.now
  obtain ⟨⟨high', hingested⟩, -⟩ := hbegun.ingest m.confined m.now m.lookup
  obtain ⟨low', hpruned⟩ :=
    hingested.prune (Window.confined_ingest m.confined _ m.now m.lookup)
      (({ seconds := m.seconds, state } : Window).startAt m.now)
  exact .inr ⟨low', high', hpruned⟩

/-- Several moves leave a window in order. -/
theorem moves (h : state.Orderly) (ms : List (Window.Move σ)) : (state.moves ms).Orderly := by
  induction ms generalizing state with
  | nil => exact h
  | cons m rest ih => exact ih (h.move m)

end Orderly

end WindowState

/-! ## Snapshots in order -/

namespace Snapshot

variable {snapshot : Snapshot} {state : WindowState}

/-- Of the entries that count, none of a window that has not begun has a view, and the segments of
every boost lie one behind the other, none past the high watermark. -/
structure Orderly (snapshot : Snapshot) : Prop where
  unbegun : snapshot.high = none →
    latest snapshot.kept = [] ∧ ∀ e ∈ latest snapshot.totals, e.2 = 0
  segments : ∀ high ∈ snapshot.high, ∀ e ∈ latest snapshot.kept,
    e.2.segments.Pairwise (·.last < ·.first) ∧ ∀ g ∈ e.2.segments, g.last ≤ high

instance (snapshot : Snapshot) : Decidable snapshot.Orderly :=
  decidable_of_iff
    ((snapshot.high = none → latest snapshot.kept = [] ∧ ∀ e ∈ latest snapshot.totals, e.2 = 0) ∧
      ∀ high ∈ snapshot.high, ∀ e ∈ latest snapshot.kept,
        e.2.segments.Pairwise (·.last < ·.first) ∧ ∀ g ∈ e.2.segments, g.last ≤ high)
    ⟨fun ⟨hunbegun, hsegments⟩ => ⟨hunbegun, hsegments⟩, fun h => ⟨h.unbegun, h.segments⟩⟩

/-- Only from entries in order is a state in order rebuilt. -/
theorem orderly_of_rebuilt (haccepted : snapshot.toState = .ok state) (h : state.Orderly) :
    snapshot.Orderly := by
  obtain ⟨-, hhigh, -⟩ := of_toState haccepted
  rcases h with ⟨hunbegun, hholdings, htotals⟩ | ⟨low, high, h⟩
  · refine ⟨fun _ => ⟨?_, ?_⟩, fun high hmem => ?_⟩
    · refine List.eq_nil_iff_forall_not_mem.mpr fun ⟨id, h⟩ he => ?_
      have hheld := (holding_of_toState haccepted).mpr he
      simp [hholdings] at hheld
    · rintro ⟨b, n⟩ he
      have htotal := htotals b
      rw [WindowState.total, Std.ExtTreeMap.getD_eq_getD_getElem?,
        (total_of_toState haccepted).mpr he] at htotal
      exact htotal
    · rw [← hhigh, hunbegun.2] at hmem
      cases hmem
  · refine ⟨fun hnone => ?_, fun high' hhigh' ⟨id, g⟩ he => ?_⟩
    · rw [← hhigh, h.high_eq] at hnone
      cases hnone
    · rw [← hhigh, h.high_eq] at hhigh'
      cases hhigh'
      have horderly := h.holdings id g ((holding_of_toState haccepted).mpr he)
      exact ⟨horderly.apart, fun s hs => (horderly.segments s hs).below⟩

/-- From entries in order a state in order is rebuilt. -/
theorem Orderly.rebuilt (h : snapshot.Orderly) (haccepted : snapshot.toState = .ok state) :
    state.Orderly := by
  obtain ⟨-, hhigh, -, hunbegun | ⟨low, high, hbetween⟩⟩ := of_toState haccepted
  · obtain ⟨hkept, htotals⟩ := h.unbegun (hhigh.symm.trans hunbegun.2)
    refine .inl ⟨hunbegun, ?_, fun b => ?_⟩
    · refine Std.ExtTreeMap.ext_getElem? fun {id} => ?_
      rw [Std.ExtTreeMap.getElem?_empty, Option.eq_none_iff_forall_not_mem]
      intro g hg
      have hmem := (holding_of_toState haccepted).mp hg
      simp [hkept] at hmem
    · rw [WindowState.total, Std.ExtTreeMap.getD_eq_getD_getElem?]
      cases hb : state.totals[b]? with
      | none => rfl
      | some n => exact htotals (b, n) ((total_of_toState haccepted).mp hb)
  · refine .inr ⟨low, high, hbetween, fun id g hg => ?_⟩
    obtain ⟨hapart, hbelow⟩ := h.segments high (hhigh ▸ hbetween.high_eq) (id, g)
      ((holding_of_toState haccepted).mp hg)
    obtain ⟨hnonempty, hsegments⟩ := held_of_toState haccepted hg
    exact ⟨⟨hnonempty, fun s hs => ⟨(hsegments s hs).1, (hsegments s hs).2, hbelow s hs⟩⟩, hapart⟩

/-- A rebuilt state is in order exactly when the entries of the snapshot that count are. -/
theorem orderly_iff (haccepted : snapshot.toState = .ok state) :
    state.Orderly ↔ snapshot.Orderly :=
  ⟨orderly_of_rebuilt haccepted, fun h => h.rebuilt haccepted⟩

/-- What is rebuilt from an accepted snapshot holds nothing without views, its watermarks are both
absent or in order, and no segment runs backwards. The window is in order exactly when the entries
of the snapshot that count are. Then it stays in order through whatever it meets: its segments can
be told apart, no intake turns one of them backwards, and every later snapshot of it is accepted and
gives a window in order. -/
theorem orderly_iff_of_accepted {σ : Type} [ViewSource σ] {snapshot : Snapshot}
    {state : WindowState} (haccepted : snapshot.toState = .ok state) :
    (state.Populated ∧ (state.Unbegun ∨ ∃ low high, state.Between low high) ∧
      ∀ id : String, ∀ h ∈ state.holdings[id]?, ∀ s ∈ h.segments, s.first ≤ s.last) ∧
    (state.Orderly ↔ snapshot.Orderly) ∧
    (snapshot.Orderly → ∀ past : List (Window.Move σ),
      (state.moves past).Orderly ∧
      (∀ id : String, ∀ h ∈ (state.moves past).holdings[id]?, h.Unambiguous) ∧
      (∀ (m : Window.Move σ) (id : String), ∀ h ∈ (state.moves past).holdings[id]?,
        let begun := ({ seconds := m.seconds, state := state.moves past } : Window).begin m.now
        ∃ h' ∈ (Window.ingest begun m.now m.log m.lookup).state.holdings[id]?, h.GrowsTo h') ∧
      ∀ seconds savedAt, ∃ restored,
        (capture (state.moves past) seconds savedAt).toState = .ok restored ∧
          (state.moves past).Agrees restored ∧ restored.Orderly) := by
  obtain ⟨-, -, hpopulated, hwatermarks⟩ := of_toState haccepted
  have hforward : ∀ id : String, ∀ h ∈ state.holdings[id]?, ∀ s ∈ h.segments, s.first ≤ s.last :=
    fun id h hh s hs => ((held_of_toState haccepted hh).2 s hs).2
  refine ⟨⟨hpopulated, hwatermarks, hforward⟩, orderly_iff haccepted, fun hsnapshot past => ?_⟩
  have hpast : (state.moves past).Orderly := ((orderly_iff haccepted).mpr hsnapshot).moves past
  refine ⟨hpast, hpast.unambiguous, fun m id => ?_, hpast.rebuild⟩
  exact WindowState.Orderly.growsTo_ingest (w := ⟨m.seconds, state.moves past⟩) hpast m.confined
    m.now m.lookup id

/-- A snapshot with two entries for one boost. The segments of the first one overlap, those of the
second one lie one behind the other. -/
def replaced : Snapshot :=
  { seconds := 1, low := some ⟨5, 1⟩, high := some ⟨9, 1⟩
    totals := [(⟨.newsfeed, .general⟩, 2)]
    holdings :=
      [("a", { segments :=
        [⟨⟨.newsfeed, false⟩, ⟨6, 1⟩, ⟨9, 1⟩, 2⟩, ⟨⟨.newsfeed, true⟩, ⟨7, 1⟩, ⟨8, 1⟩, 1⟩] }),
      ("a", { segments :=
        [⟨⟨.newsfeed, true⟩, ⟨6, 1⟩, ⟨7, 1⟩, 1⟩, ⟨⟨.newsfeed, false⟩, ⟨9, 1⟩, ⟨9, 1⟩, 1⟩] })] }

/-- The later entry counts, so the window is in order. A view past the high watermark continues the
second segment. -/
theorem orderly_iff_of_accepted_replaced :
    let forth : Window.Move Memory.Log :=
      ⟨1, 30, .filing [.filed ⟨12, 1⟩ "urn:boost:newsfeed:a"], inNewsfeed, HonestSource.confined _⟩
    ∃ state, replaced.toState = .ok state ∧ replaced.Orderly ∧
      (state.move forth).holdings["a"]? = some { segments :=
        [⟨⟨.newsfeed, true⟩, ⟨6, 1⟩, ⟨7, 1⟩, 1⟩, ⟨⟨.newsfeed, false⟩, ⟨9, 1⟩, ⟨12, 1⟩, 2⟩] } ∧
      (state.Populated ∧ (state.Unbegun ∨ ∃ low high, state.Between low high) ∧
        ∀ id : String, ∀ h ∈ state.holdings[id]?, ∀ s ∈ h.segments, s.first ≤ s.last) ∧
      (state.Orderly ↔ replaced.Orderly) ∧
      (replaced.Orderly → ∀ past : List (Window.Move Memory.Log),
        (state.moves past).Orderly ∧
        (∀ id : String, ∀ h ∈ (state.moves past).holdings[id]?, h.Unambiguous) ∧
        (∀ (m : Window.Move Memory.Log) (id : String), ∀ h ∈ (state.moves past).holdings[id]?,
          let begun := ({ seconds := m.seconds, state := state.moves past } : Window).begin m.now
          ∃ h' ∈ (Window.ingest begun m.now m.log m.lookup).state.holdings[id]?, h.GrowsTo h') ∧
        ∀ seconds savedAt, ∃ restored,
          (capture (state.moves past) seconds savedAt).toState = .ok restored ∧
            (state.moves past).Agrees restored ∧ restored.Orderly) :=
  ⟨_, rfl, by decide +kernel, by decide +kernel,
    orderly_iff_of_accepted (rfl : replaced.toState = .ok _)⟩

/-- A snapshot of a segment that ends past the high watermark. -/
def endingPast : Snapshot :=
  { seconds := 1, low := some ⟨5, 1⟩, high := some ⟨5, 1⟩
    totals := [(⟨.newsfeed, .general⟩, 2)]
    holdings := [("a", { segments := [⟨⟨.newsfeed, false⟩, ⟨10, 1⟩, ⟨20, 1⟩, 2⟩] })] }

/-- The snapshot is accepted. A view past the high watermark continues the segment backwards, and the
next snapshot of the window is refused. -/
theorem not_orderly_of_accepted_endingPast :
    let forth : Window.Move Memory.Log :=
      ⟨1, 30, .filing [.filed ⟨6, 1⟩ "urn:boost:newsfeed:a"], inNewsfeed, HonestSource.confined _⟩
    ∃ state, endingPast.toState = .ok state ∧ ¬state.Orderly ∧
      (state.move forth).holdings["a"]? =
        some { segments := [⟨⟨.newsfeed, false⟩, ⟨10, 1⟩, ⟨6, 1⟩, 3⟩] } ∧
      (capture (state.move forth) 1 0).toState = .error (.invertedSegment "a") := by
  intro forth
  refine ⟨_, rfl, ?_, by decide +kernel, by decide +kernel⟩
  rw [orderly_iff (rfl : endingPast.toState = .ok _)]
  decide

end Snapshot

end Pacing
