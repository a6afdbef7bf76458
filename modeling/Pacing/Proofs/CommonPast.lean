import Pacing.Proofs.TrailingWindow

/-!
# Windows with a common past

Two windows go on from one state. Each reads the new views of the log in its own portions and takes
back the expired ones in its own portions, and scans may fail in between. As long as the repository
answers alike whenever it answers, each has read what there was before and a selection of what has
come since. When both have caught up with one time over one log, the selections are the same, and so
are the counters.
-/

namespace Pacing

open HonestSource (held)

/-- Two states with the same watermarks and the same numbers of views. -/
structure WindowState.SameCounters (state state' : WindowState) : Prop where
  low_eq : state'.low = state.low
  high_eq : state'.high = state.high
  total_eq (b : Bucket) : state'.total b = state.total b
  viewsOf_eq (id : String) : state'.viewsOf id = state.viewsOf id

/-- Accounts of the same readings past the same watermark have the same totals. -/
theorem Accounts.total_eq_of_perm {state state' : WindowState} {readings readings' : List Reading}
    {low high high' : Cursor} (h : Accounts state readings low high)
    (h' : Accounts state' readings' low high') (hperm : readings'.Perm readings)
    (hsize : readings.length < 2 ^ 64) (b : Bucket) : state'.total b = state.total b := by
  refine UInt64.toNat_inj.mp ?_
  rw [h.totals hsize b, h'.totals (hperm.length_eq ▸ hsize) b]
  exact hperm.countP_eq _

/-- Accounts of the same readings past the same watermark have the same views of every boost. -/
theorem Accounts.viewsOf_eq_of_perm {state state' : WindowState}
    {readings readings' : List Reading} {low high high' : Cursor}
    (h : Accounts state readings low high) (h' : Accounts state' readings' low high')
    (hperm : readings'.Perm readings) (id : String) : state'.viewsOf id = state.viewsOf id := by
  rw [h.viewsOf_eq id, h'.viewsOf_eq id]
  exact hperm.countP_eq _

/-- Whenever a repository answers, it answers with the profile that another one has. -/
def Lookup.Echoes (answers lookup : Lookup) : Prop :=
  ∀ id boost, answers id = .ok boost → boost.map Boost.profile = profileOf lookup id

/-- A repository answers as it does itself. -/
theorem Lookup.Echoes.refl (lookup : Lookup) : lookup.Echoes lookup := by
  intro id boost hanswer
  simp [profileOf, hanswer]

variable {σ : Type} [ViewSource σ] [HonestSource σ]

/-- What a complete intake reads, it reads as the other repository would have it. -/
theorem Lookup.Echoes.map_under_freshViews {answers lookup : Lookup} (h : answers.Echoes lookup)
    (state : WindowState) (now : Int64) (log : σ) :
    (Window.freshViews state now log answers).map (Reading.under answers) =
      (Window.freshViews state now log answers).map (Reading.under lookup) := by
  obtain ⟨_, s, hs, _⟩ := Window.ingest_spec state now log answers
  refine List.map_congr_left fun v hv => ?_
  have hprofile : v.boost?.bind (profileOf answers) = v.boost?.bind (profileOf lookup) := by
    cases hboost : v.boost? with
    | none => rfl
    | some id =>
      obtain ⟨boost, hanswer⟩ := hs.answered v hv id hboost
      rw [Option.bind_some, Option.bind_some, ← h id boost hanswer, profileOf, hanswer]
  simp only [Reading.under, hprofile]

namespace Chronicle

/-- A step that changes the log only past the high watermark, moves the window no further than to a
given time while the repository answers as a given one would, if it answers, or rebuilds the window
with the same length. -/
def Continues (now : Int64) (lookup : Lookup) (c : Chronicle σ) : Step σ → Prop
  | .log log => c.Settled (.log log)
  | .advance earlier answers => earlier ≤ now ∧ answers.Echoes lookup
  | .restart seconds => seconds = c.window.seconds

/-- Both scans of an advance are complete. -/
def Completes (c : Chronicle σ) (now : Int64) (lookup : Lookup) : Prop :=
  (∃ tally, (c.window.advance now c.log lookup).ingest = .ok tally) ∧
    ∃ tally, (c.window.advance now c.log lookup).prune = .ok tally

/-- A window has caught up with a time: nothing up to then is unread, and nothing that has expired
then is still to be taken back. -/
structure CaughtUp (w : Window) (logged : List View) (now : Int64) (low high : Cursor) : Prop where
  read : ∀ v ∈ logged, v.cursor.ts ≤ now → v.cursor ≤ high
  expired : ∀ v ∈ logged, v.cursor ≤ high → v.cursor < Cursor.floor (w.startAt now) →
    v.cursor ≤ low

/-- What an advance does to a window that has begun: the watermarks stay or move forward to views that
the time reaches, and where both scans are complete the window catches up with the time. -/
structure Advances (c : Chronicle σ) (now : Int64) (lookup : Lookup)
    (start low high low' high' : Cursor) : Prop where
  held_eq : held (c.advance now lookup).log = held c.log
  conserved : Conserved (c.advance now lookup).window.state (c.advance now lookup).readings
    (held (c.advance now lookup).log) start low' high'
  le_low : low ≤ low'
  le_high : high ≤ high'
  high_reached : high' = high ∨ ∃ v ∈ held c.log, v.cursor = high' ∧ v.cursor.ts ≤ now
  low_reached : low' = low ∨ ∃ v ∈ held c.log, v.cursor = low' ∧
    v.cursor < Cursor.floor (c.window.startAt now)
  caughtUp : c.Completes now lookup → CaughtUp c.window (held c.log) now low' high'

/-- An advance moves a window whose accounts conserve the log to such watermarks. -/
theorem advances {c : Chronicle σ} {start low high : Cursor}
    (h : Conserved c.window.state c.readings (held c.log) start low high) (now : Int64)
    (lookup : Lookup) : ∃ low' high', c.Advances now lookup start low high low' high' := by
  have hbegun : Conserved (c.window.begin now) c.readings (held c.log) start low high := by
    rw [h.accounts.begin_eq]
    exact h
  have hingested := hbegun.ingest now lookup
  have hhigh := hbegun.accounts.high_eq
  have hlow' := hingested.accounts.low_eq
  have hhigh' := hingested.accounts.high_eq
  let ingested := Window.ingest (c.window.begin now) now c.log lookup
  let fresh := Window.freshViews (c.window.begin now) now c.log lookup
  let stale := Window.staleViews ingested.state (c.window.startAt now) ingested.log
  have hlog : held ingested.log = held c.log :=
    (Window.ingest_spec (c.window.begin now) now c.log lookup).1
  refine ⟨reach stale low, reach fresh high, {
    held_eq := Window.held_advance c.window now c.log lookup
    conserved := hingested.prune (c.window.startAt now)
    le_low := start_le_reach fun v hv => (Window.of_mem_staleViews hlow' hhigh' hv).2.1
    le_high := start_le_reach fun v hv => (Window.of_mem_freshViews hhigh hv).2.1
    high_reached := (reach_eq_or fresh high).imp_right ?_
    low_reached := (reach_eq_or stale low).imp_right ?_
    caughtUp := ?_ }⟩
  · rintro ⟨v, hv, hreach⟩
    obtain ⟨hlogged, _, hts⟩ := Window.of_mem_freshViews hhigh hv
    exact ⟨v, hlogged, hreach, hts⟩
  · rintro ⟨v, hv, hreach⟩
    obtain ⟨hlogged, _, _, hexpired⟩ := Window.of_mem_staleViews hlow' hhigh' hv
    exact ⟨v, hlog ▸ hlogged, hreach, hexpired⟩
  · rintro ⟨⟨_, hingest⟩, ⟨_, hprune⟩⟩
    refine ⟨fun v hv hts => ?_, fun v hv hle hexpired => ?_⟩
    · exact Window.le_reach_of_ingest hhigh hingest hv hts
    · exact Window.le_reach_of_prune hlow' hhigh' hprune (hlog ▸ hv) hle hexpired

/-- A window has gone on from a base: it has read what the base has read and views that came since,
and its watermarks are those of the base or the places of views that a given time has reached. -/
structure Follows (now : Int64) (lookup : Lookup) (base c : Chronicle σ)
    (start low₀ high₀ low high : Cursor) : Prop where
  seconds_eq : c.window.seconds = base.window.seconds
  before : Conserved base.window.state base.readings (held c.log) start low₀ high₀
  after : Conserved c.window.state c.readings (held c.log) start low high
  readings_eq : ∃ views : List View,
    c.readings = base.readings ++ views.map (Reading.under lookup)
  le_high : high₀ ≤ high
  le_low : low₀ ≤ low
  high_reached : high = high₀ ∨ ∃ v ∈ held c.log, v.cursor = high ∧ v.cursor.ts ≤ now
  low_reached : low = low₀ ∨ ∃ v ∈ held c.log, v.cursor = low ∧
    v.cursor < Cursor.floor (base.window.startAt now)

namespace Follows

variable {now : Int64} {lookup : Lookup} {base c c' : Chronicle σ}
  {start low₀ high₀ low high low' high' : Cursor}

/-- A window follows itself. -/
theorem refl (h : Conserved base.window.state base.readings (held base.log) start low high) :
    Follows now lookup base base start low high low high :=
  ⟨rfl, h, h, ⟨[], by simp⟩, le_refl _, le_refl _, .inl rfl, .inl rfl⟩

/-- A window that goes on from a base is as long, so it starts where the base does at every time. -/
theorem startAt_eq (h : Follows now lookup base c start low₀ high₀ low high) (time : Int64) :
    c.window.startAt time = base.window.startAt time := by
  simp only [Window.startAt, Window.millis, h.seconds_eq]

/-- A log that changes past the high watermark keeps all that was read. -/
theorem log (h : Follows now lookup base c start low₀ high₀ low high) {log : σ}
    (hsettled : c.Settled (.log log)) :
    Follows now lookup base (c.step (.log log)) start low₀ high₀ low high := by
  have hkept := hsettled high h.after.accounts.high_eq
  have hmem {v : View} (hv : v ∈ held c.log) (hle : v.cursor ≤ high) : v ∈ held log :=
    (List.mem_filter.mp (hkept ▸ List.mem_filter.mpr ⟨hv, by simpa using hle⟩)).1
  refine ⟨h.seconds_eq, h.before.settled (filter_le_eq_of_le h.le_high hkept),
    h.after.settled hkept, h.readings_eq, h.le_high, h.le_low, h.high_reached.imp_right ?_,
    h.low_reached.imp_right ?_⟩
  · rintro ⟨v, hv, hhigh, hnow⟩
    exact ⟨v, hmem hv (hhigh ▸ le_refl _), hhigh, hnow⟩
  · rintro ⟨v, hv, hlow, hexpired⟩
    exact ⟨v, hmem hv (hlow ▸ h.after.accounts.low_le_high), hlow, hexpired⟩

/-- An advance reads views that came since, and takes back views that expire. -/
theorem advance (h : Follows now lookup base c start low₀ high₀ low high) {earlier : Int64}
    {answers : Lookup} (hearlier : earlier ≤ now) (hanswers : answers.Echoes lookup) :
    ∃ low' high',
      Follows now lookup base (c.advance earlier answers) start low₀ high₀ low' high' ∧
      (c.Completes earlier answers →
        CaughtUp base.window (held (c.advance earlier answers).log) earlier low' high') := by
  obtain ⟨low', high', hadvances⟩ := advances h.after earlier answers
  have hheld := hadvances.held_eq
  have hstart : Cursor.floor (c.window.startAt earlier) ≤
      Cursor.floor (base.window.startAt now) := by
    rw [h.startAt_eq]
    exact Cursor.floor_le_iff.mpr (base.window.startAt_mono hearlier)
  refine ⟨low', high', {
    seconds_eq := h.seconds_eq
    before := hheld ▸ h.before
    after := hadvances.conserved
    readings_eq := ?_
    le_high := le_trans h.le_high hadvances.le_high
    le_low := le_trans h.le_low hadvances.le_low
    high_reached := ?_
    low_reached := ?_ }, fun hcomplete => ?_⟩
  · obtain ⟨views, hviews⟩ := h.readings_eq
    refine ⟨views ++ Window.freshViews (c.window.begin earlier) earlier c.log answers, ?_⟩
    simp only [Chronicle.advance, freshReadings, hanswers.map_under_freshViews, hviews,
      List.append_assoc, List.map_append]
  · rw [hheld]
    rcases hadvances.high_reached with rfl | ⟨v, hv, hhigh, hts⟩
    · exact h.high_reached
    · exact .inr ⟨v, hv, hhigh, Int64.le_trans hts hearlier⟩
  · rw [hheld]
    rcases hadvances.low_reached with rfl | ⟨v, hv, hlow, hexpired⟩
    · exact h.low_reached
    · exact .inr ⟨v, hv, hlow, lt_of_lt_of_le hexpired hstart⟩
  · obtain ⟨hread, hexpired⟩ := hadvances.caughtUp hcomplete
    rw [h.startAt_eq] at hexpired
    exact hheld ▸ ⟨hread, hexpired⟩

/-- A window that is rebuilt follows the same base. -/
theorem restart (h : Follows now lookup base c start low₀ high₀ low high) :
    Follows now lookup base (c.restart c.window.seconds) start low₀ high₀ low high := by
  obtain ⟨state, hrestart, hagrees⟩ := restart_of_tidy h.after.accounts.tidy c.window.seconds
  rw [hrestart]
  exact ⟨h.seconds_eq, h.before, h.after.agrees hagrees, h.readings_eq, h.le_high, h.le_low,
    h.high_reached, h.low_reached⟩

/-- A window that is rebuilt as its base was follows the base over whatever the log has become. -/
theorem rebuilt (h : Follows now lookup base c start low₀ high₀ low high) {state : WindowState}
    (hagrees : base.window.state.Agrees state) :
    Follows now lookup base
      { c with window := { base.window with state }, readings := base.readings }
      start low₀ high₀ low₀ high₀ :=
  ⟨rfl, h.before, h.before.agrees hagrees, ⟨[], by simp⟩, le_refl _, le_refl _,
    .inl rfl, .inl rfl⟩

/-- A window that has gone on from a base goes on with each step of that kind. -/
theorem step (h : Follows now lookup base c start low₀ high₀ low high) {a : Step σ}
    (ha : c.Continues now lookup a) :
    ∃ low' high', Follows now lookup base (c.step a) start low₀ high₀ low' high' := by
  cases a with
  | log log => exact ⟨low, high, h.log ha⟩
  | advance earlier answers =>
    obtain ⟨low', high', hnext, _⟩ := h.advance ha.1 ha.2
    exact ⟨low', high', hnext⟩
  | restart seconds =>
    obtain rfl : seconds = c.window.seconds := ha
    exact ⟨low, high, h.restart⟩

/-- A window follows its base however it goes on. -/
theorem run (h : Conserved base.window.state base.readings (held base.log) start low₀ high₀)
    {steps : List (Step σ)} (hsteps : Along Chronicle.step (Continues now lookup) base steps) :
    ∃ low high, Follows now lookup base (base.run steps) start low₀ high₀ low high :=
  hsteps.preserves (I := fun c => ∃ low high, Follows now lookup base c start low₀ high₀ low high)
    (fun _ _ ha hc => let ⟨_, _, h⟩ := hc; h.step ha) ⟨low₀, high₀, .refl h⟩

/-- Of two windows that follow one base, one that has caught up has come as far as the other. -/
theorem le_of_caughtUp (h : Follows now lookup base c start low₀ high₀ low high)
    (h' : Follows now lookup base c' start low₀ high₀ low' high') (hlog : held c'.log = held c.log)
    (hcaught : CaughtUp base.window (held c.log) now low high) :
    high' ≤ high ∧ (high' ≤ high → low' ≤ low) := by
  constructor
  · rcases h'.high_reached with rfl | ⟨v, hv, rfl, hts⟩
    · exact h.le_high
    · exact hcaught.read v (hlog ▸ hv) hts
  · intro hhigh
    rcases h'.low_reached with rfl | ⟨v, hv, rfl, hexpired⟩
    · exact h.le_low
    · exact hcaught.expired v (hlog ▸ hv) (le_trans h'.after.accounts.low_le_high hhigh)
        hexpired

/-- Two windows that follow one base and have caught up over one log have the same watermarks and
have read the same. -/
theorem eq_of_caughtUp (h : Follows now lookup base c start low₀ high₀ low high)
    (h' : Follows now lookup base c' start low₀ high₀ low' high') (hlog : held c'.log = held c.log)
    (hcaught : CaughtUp base.window (held c.log) now low high)
    (hcaught' : CaughtUp base.window (held c'.log) now low' high') :
    low' = low ∧ high' = high ∧ c'.readings.Perm c.readings := by
  obtain ⟨hhigh', hlow'⟩ := h.le_of_caughtUp h' hlog hcaught
  obtain ⟨hhigh, hlow⟩ := h'.le_of_caughtUp h hlog.symm hcaught'
  have hhigh_eq : high' = high := le_antisymm hhigh' hhigh
  refine ⟨le_antisymm (hlow' hhigh') (hlow hhigh), hhigh_eq, ?_⟩
  obtain ⟨views, hviews⟩ := h.readings_eq
  obtain ⟨views', hviews'⟩ := h'.readings_eq
  have hview (l : List View) : (l.map (Reading.under lookup)).map Reading.view = l := by
    simp [Function.comp_def, Reading.under]
  have hread := h.after.logged_perm
  have hread' := h'.after.logged_perm
  rw [hhigh_eq, hlog] at hread'
  have hperm := hread'.symm.trans hread
  rw [hviews, hviews', List.map_append, List.map_append, hview, hview,
    List.perm_append_left_iff] at hperm
  rw [hviews, hviews']
  exact (hperm.map _).append_left _

/-- Two windows that follow one base and have caught up over one log have the same counters. -/
theorem counters_eq_of_caughtUp (h : Follows now lookup base c start low₀ high₀ low high)
    (h' : Follows now lookup base c' start low₀ high₀ low' high') (hlog : held c'.log = held c.log)
    (hcaught : CaughtUp base.window (held c.log) now low high)
    (hcaught' : CaughtUp base.window (held c'.log) now low' high')
    (hsize : (held c.log).length < 2 ^ 64) :
    c.window.state.SameCounters c'.window.state := by
  obtain ⟨rfl, rfl, hperm⟩ := h.eq_of_caughtUp h' hlog hcaught hcaught'
  exact {
    low_eq := h'.after.accounts.low_eq.trans h.after.accounts.low_eq.symm
    high_eq := h'.after.accounts.high_eq.trans h.after.accounts.high_eq.symm
    total_eq := h.after.accounts.total_eq_of_perm h'.after.accounts hperm
      (Nat.lt_of_le_of_lt h.after.length_le hsize)
    viewsOf_eq := h.after.accounts.viewsOf_eq_of_perm h'.after.accounts hperm }

end Follows

end Chronicle

end Pacing
