import Pacing.Proofs.CommonPast

/-!
# Schedules and retries do not show

While the log holds the same views and the repository has the same answers, a window may be moved
forward in one advance or in many, and any of them may fail in either scan. An intermediate
take-back may drop a segment that a later intake would have continued, so that the segments can
differ. The counters cannot: once an advance completes both scans, they are those of a single
advance.
-/

namespace Pacing

open HonestSource (held)

namespace Chronicle

variable {σ : Type} [ViewSource σ] [HonestSource σ] {c : Chronicle σ} {now : Int64}
  {lookup : Lookup}

/-- An attempt to move the window, no further than to a given time, while the repository answers as
it always does or not at all. Between two attempts the log may come to fail in another way, and
holds the same views. -/
def Retries (now : Int64) (lookup : Lookup) (c : Chronicle σ) : Step σ → Prop
  | .log log => held log = held c.log
  | .advance earlier answers =>
    earlier ≤ now ∧ ∀ id, answers id = lookup id ∨ ∃ e, answers id = .error e
  | .restart _ => False

/-- A repository that does not always answer has no other answers. -/
theorem echoes_of_eq_or_error {answers lookup : Lookup}
    (h : ∀ id, answers id = lookup id ∨ ∃ e, answers id = .error e) : answers.Echoes lookup := by
  intro id boost hanswer
  rcases h id with heq | ⟨e, herror⟩
  · exact Lookup.Echoes.refl lookup id boost (heq ▸ hanswer)
  · rw [hanswer] at herror
    cases herror

/-- An advance that is tried again continues the run. -/
theorem continues_of_retries {a : Step σ} (h : c.Retries now lookup a) :
    c.Continues now lookup a := by
  cases a with
  | log log =>
    intro high _
    rw [show held log = held c.log from h]
  | advance earlier answers => exact ⟨h.1, echoes_of_eq_or_error h.2⟩
  | restart seconds => exact h.elim

/-- Attempts leave what the log holds as it is. -/
theorem held_of_retries {steps : List (Step σ)} (h : Along step (Retries now lookup) c steps) :
    held (c.run steps).log = held c.log := by
  refine h.preserves (I := fun c' => held c'.log = held c.log) (fun c' a ha hc' => ?_) rfl
  cases a with
  | log log => exact Eq.trans ha hc'
  | advance earlier answers =>
    exact (Window.held_advance c'.window earlier c'.log answers).trans hc'
  | restart seconds => exact ha.elim

/-- From any state that a window has begun and reached while the log changed only past its high
watermark, an advance that completes after any number of attempts, failed or not, leaves the
counters that a single complete advance leaves. -/
theorem retries_leave_same_counters {seconds : Int64} {log : σ} {steps retries : List (Step σ)}
    (hsettled : Along step Settled (start seconds log) steps)
    (hbegun : ((start seconds log).run steps).window.state.isInitialized)
    (hsize : (held ((start seconds log).run steps).log).length < 2 ^ 64)
    (hretries : Along step (Retries now lookup) ((start seconds log).run steps) retries)
    (hlast : (((start seconds log).run steps).run retries).Completes now lookup)
    (honce : ((start seconds log).run steps).Completes now lookup) :
    let c := (start seconds log).run steps
    (c.advance now lookup).window.state.SameCounters
      ((c.run retries).advance now lookup).window.state := by
  intro c
  obtain ⟨first, low₀, high₀, hbase⟩ : ∃ first low high,
      Conserved c.window.state c.readings (held c.log) first low high := by
    rcases InOrder.run hsettled with ⟨hstate, -⟩ | hconserved
    · rw [hstate] at hbegun
      cases hbegun
    · exact hconserved
  have hself : Follows now lookup c c first low₀ high₀ low₀ high₀ := .refl hbase
  obtain ⟨low, high, honceFollows, honceCaught⟩ :=
    hself.advance (Int64.le_refl now) (.refl lookup)
  obtain ⟨_, _, hretried⟩ := Follows.run hbase (hretries.mono fun _ _ => continues_of_retries)
  obtain ⟨low', high', hlastFollows, hlastCaught⟩ :=
    hretried.advance (Int64.le_refl now) (.refl lookup)
  have hadvance (c' : Chronicle σ) : held (c'.advance now lookup).log = held c'.log :=
    Window.held_advance c'.window now c'.log lookup
  have hlog : held ((c.run retries).advance now lookup).log = held (c.advance now lookup).log := by
    rw [hadvance, hadvance, held_of_retries hretries]
  exact honceFollows.counters_eq_of_caughtUp hlastFollows hlog (honceCaught honce)
    (hlastCaught hlast) (hadvance c ▸ hsize)

/-- Two boosts were viewed after a window of one second began. -/
def viewed : Memory.Log := .filing [.filed ⟨1, 1⟩ "urn:boost:newsfeed:a",
  .filed ⟨3, 1⟩ "urn:boost:newsfeed:a", .filed ⟨4, 1⟩ "urn:boost:newsfeed:b"]

/-- The first view is counted and then taken back by an advance whose intake breaks off, and the
repository is out of reach in the advance after that. -/
def piecemeal : List (Step Memory.Log) :=
  [.advance 1 inNewsfeed, .log (viewed.failNextAfter 1), .advance 1002 inNewsfeed,
    .advance 1003 fun _ => .error .outage]

/-- A single advance and the attempts leave different segments and the same counters. -/
theorem retries_leave_same_counters_piecemeal :
    let c := (start 1 ({} : Memory.Log)).run [.advance 0 inNewsfeed, .log viewed]
    let once := (c.advance 1003 inNewsfeed).window.state
    let last := ((c.run piecemeal).advance 1003 inNewsfeed).window.state
    last.holdings["a"]? ≠ once.holdings["a"]? ∧ once.SameCounters last := by
  have hsettled : Along step Settled (start 1 ({} : Memory.Log))
      [.advance 0 inNewsfeed, .log viewed] := by decide
  have hretries : Along step (Retries 1003 inNewsfeed)
      ((start 1 ({} : Memory.Log)).run [.advance 0 inNewsfeed, .log viewed]) piecemeal :=
    ⟨⟨by decide, fun _ => .inl rfl⟩, rfl, ⟨by decide, fun _ => .inl rfl⟩,
      ⟨by decide, fun _ => .inr ⟨.outage, rfl⟩⟩, trivial⟩
  refine ⟨by decide, ?_⟩
  exact retries_leave_same_counters hsettled (by decide) (by decide) hretries
    ⟨⟨_, rfl⟩, ⟨_, rfl⟩⟩ ⟨⟨_, rfl⟩, ⟨_, rfl⟩⟩

end Chronicle

end Pacing
