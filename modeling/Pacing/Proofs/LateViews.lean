import Pacing.Proofs.ChronicleAccounts

/-!
# Views that arrive late

A view may be filed behind the high watermark, where no intake will read it. A take-back tells the
views that were counted from others by where they lie alone, so that a late view in a segment of its
boost is taken back although it was never counted. As long as the log keeps what it has, this is
the only harm that late views can do: the totals are those of the segments, and only counted views
are taken back, exactly when no take-back finds a late view in a segment.
-/

namespace Pacing

open HonestSource (held)

/-- How many views a holding has in a bucket. -/
def Holding.viewsIn (h : Holding) (b : Bucket) : Nat :=
  ((h.segments.filter (b ∈ ·.profile.buckets)).map Segment.views).sum

/-- How many views all holdings together have in a bucket. -/
def WindowState.viewsIn (state : WindowState) (b : Bucket) : Nat :=
  (state.holdings.toList.map fun (_, h) => h.viewsIn b).sum

/-- The holdings have in a bucket the readings that were counted there. -/
theorem Accounts.viewsIn_eq {state : WindowState} {readings : List Reading} {low high : Cursor}
    (h : Accounts state readings low high) (b : Bucket) :
    state.viewsIn b = readings.countP fun r => b ∈ r.buckets ∧ low < r.cursor := by
  have hbucket (r : Reading) : b ∈ r.buckets ↔ ∃ p ∈ r.profile, b ∈ p.buckets := by
    cases hprofile : r.profile <;> simp [Reading.buckets, hprofile]
  have hholding : ∀ e ∈ state.holdings.toList, e.2.viewsIn b =
      readings.countP fun r => r.boost? = some e.1 ∧ b ∈ r.buckets ∧ low < r.cursor := by
    intro e he
    have hsegments := (h.holdings e.1).segments
    rw [Std.ExtTreeMap.mem_toList_iff_getElem?_eq_some.mp he, segmentsOf_some] at hsegments
    rw [Holding.viewsIn, hsegments.sum_views fun p => b ∈ p.buckets, readingsOf, List.countP_filter]
    refine List.countP_congr fun r _ => ?_
    simp only [hbucket, Bool.and_eq_true, decide_eq_true_eq]
    exact and_comm
  have hsum := h.sum_countP_holdings (P := fun r => b ∈ r.buckets ∧ low < r.cursor)
    fun r _ hr => ⟨?_, hr.2⟩
  · rw [← hsum, ← Std.ExtTreeMap.map_fst_toList_eq_keys, List.map_map]
    exact congrArg List.sum (List.map_congr_left hholding)
  · obtain ⟨p, hp, _⟩ := (hbucket r).mp hr.1
    exact Option.isSome_of_mem hp

namespace Chronicle

variable {σ : Type} [ViewSource σ] [HonestSource σ]

/-- The log keeps every view that it holds, and has fewer than `2 ^ 64` of them. -/
def Appends (c : Chronicle σ) : Step σ → Prop
  | .log log => (∀ v ∈ held c.log, v ∈ held log) ∧ (held log).length < 2 ^ 64
  | .advance _ _ => True
  | .restart _ => True

instance (c : Chronicle σ) : (a : Step σ) → Decidable (c.Appends a)
  | .log log => inferInstanceAs (Decidable ((∀ v ∈ held c.log, v ∈ held log) ∧
      (held log).length < 2 ^ 64))
  | .advance _ _ => isTrue trivial
  | .restart _ => isTrue trivial

/-- After an advance every total is that of the segments, and the views that it took back had been
counted. -/
def Harmless (c : Chronicle σ) : Step σ → Prop
  | .log _ => True
  | .advance now lookup =>
    (∀ b, ((c.advance now lookup).window.state.total b).toNat =
      (c.advance now lookup).window.state.viewsIn b) ∧
    ∀ v ∈ c.takenBack now lookup, ((c.advance now lookup).resolution v).isSome
  | .restart _ => True

/-- An advance finds no view in a segment of its boost that was never read. -/
def TakesBackRead (c : Chronicle σ) : Step σ → Prop
  | .log _ => True
  | .advance now lookup =>
    ∀ v ∈ c.takenBack now lookup, ∃ r ∈ (c.advance now lookup).readings, r.view = v
  | .restart _ => True

instance (c : Chronicle σ) : (a : Step σ) → Decidable (c.TakesBackRead a)
  | .log _ => isTrue trivial
  | .advance now lookup => inferInstanceAs (Decidable (∀ v ∈ c.takenBack now lookup,
      ∃ r ∈ (c.advance now lookup).readings, r.view = v))
  | .restart _ => isTrue trivial

/-- The accounts are in order and the log still holds what was read. -/
structure Retained (state : WindowState) (readings : List Reading) (logged : List View)
    (low high : Cursor) : Prop where
  accounts : Accounts state readings low high
  kept : ∀ r ∈ readings, r.view ∈ logged

namespace Retained

variable {state : WindowState} {readings : List Reading} {logged : List View} {low high : Cursor}

/-- No more was read than the log holds. -/
theorem length_le (h : Retained state readings logged low high) :
    readings.length ≤ logged.length := by
  have hsubset : readings.map Reading.view ⊆ logged := by
    intro v hv
    obtain ⟨r, hr, rfl⟩ := List.mem_map.mp hv
    exact h.kept r hr
  simpa using (h.accounts.nodup_views.subperm hsubset).length_le

end Retained

/-- The log fits, and unless the window has not begun, it still holds what was read. -/
structure Kept (c : Chronicle σ) : Prop where
  fits : (held c.log).length < 2 ^ 64
  retained : (c.window.state = {} ∧ c.readings = []) ∨
    ∃ low high, Retained c.window.state c.readings (held c.log) low high

variable {c : Chronicle σ} {now : Int64} {lookup : Lookup}

namespace Kept

/-- A window that begins over a log that keeps its views has accounts of what the log still
holds. -/
theorem begin (h : c.Kept) (now : Int64) :
    ∃ low high, Retained (c.window.begin now) c.readings (held c.log) low high := by
  rcases h.retained with ⟨hstate, hreadings⟩ | ⟨low, high, h⟩
  · rw [hreadings]
    exact ⟨_, _, Accounts.begin c.window hstate now, by simp⟩
  · rw [h.accounts.begin_eq]
    exact ⟨low, high, h⟩

/-- The intake of an advance leaves all that was read in the log. -/
theorem ingest (h : c.Kept) (now : Int64) (lookup : Lookup) :
    ∃ low high, Retained (Window.ingest (c.window.begin now) now c.log lookup).state
      (c.advance now lookup).readings
      (held (Window.ingest (c.window.begin now) now c.log lookup).log) low high := by
  obtain ⟨low, high, hbegun⟩ := h.begin now
  refine ⟨_, _, hbegun.accounts.ingest now c.log lookup, fun r hr => ?_⟩
  rw [(Window.ingest_spec (c.window.begin now) now c.log lookup).1]
  rcases List.mem_append.mp hr with hr | hr
  · exact hbegun.kept r hr
  · obtain ⟨v, hv, rfl⟩ := List.mem_map.mp hr
    exact (Window.of_mem_freshViews hbegun.accounts.high_eq hv).1

/-- An advance that takes back only what was read leaves the accounts in order, and what it took
back had been counted. -/
theorem advance (h : c.Kept) (hread : c.TakesBackRead (.advance now lookup)) :
    (∃ low high, Retained (c.advance now lookup).window.state (c.advance now lookup).readings
      (held (c.advance now lookup).log) low high) ∧
    ∀ v ∈ c.takenBack now lookup, ((c.advance now lookup).resolution v).isSome := by
  obtain ⟨low, high, hingested⟩ := h.ingest now lookup
  refine ⟨⟨_, _, hingested.accounts.prune _ _ (hingested.accounts.expires hingested.kept ?_),
    fun r hr => ?_⟩, fun v hv => ?_⟩
  · exact fun v hv hcounted => hread v (List.mem_filter.mpr ⟨hv, hcounted⟩)
  · have hlog := (Window.prune_spec (Window.ingest (c.window.begin now) now c.log lookup).state
      (c.window.startAt now) (Window.ingest (c.window.begin now) now c.log lookup).log).1
    exact hlog ▸ hingested.kept r hr
  · obtain ⟨r, hr, rfl⟩ := hread v hv
    obtain ⟨⟨id, s⟩, hfound⟩ := Option.isSome_iff_exists.mp (List.mem_filter.mp hv).2
    obtain ⟨hboost, hs, hspan⟩ := hingested.accounts.countedIn?_eq_some_iff.mp hfound
    have hprofile := (hingested.accounts.holdings id).segments.profile_eq s hs r
      (mem_readingsOf.mpr ⟨hr, hboost⟩) hspan
    rw [resolution_of_mem hingested.accounts.nodup_views hr, hprofile]
    rfl

/-- A step that keeps the log and takes back only what was read does no harm. -/
theorem step (h : c.Kept) {a : Step σ} (happends : c.Appends a) (hread : c.TakesBackRead a) :
    (c.step a).Kept ∧ c.Harmless a := by
  cases a with
  | log log =>
    refine ⟨⟨happends.2, ?_⟩, trivial⟩
    rcases h.retained with hfresh | ⟨low, high, haccounts, hkept⟩
    · exact .inl hfresh
    · exact .inr ⟨low, high, haccounts, fun r hr => happends.1 r.view (hkept r hr)⟩
  | advance now lookup =>
    obtain ⟨⟨low, high, hretained⟩, hcounted⟩ := h.advance hread
    have hlog : held (c.advance now lookup).log = held c.log :=
      Window.held_advance c.window now c.log lookup
    have hfits : (held (c.advance now lookup).log).length < 2 ^ 64 := hlog ▸ h.fits
    refine ⟨⟨hfits, .inr ⟨low, high, hretained⟩⟩, fun b => ?_, hcounted⟩
    rw [hretained.accounts.viewsIn_eq]
    exact hretained.accounts.totals (Nat.lt_of_le_of_lt hretained.length_le hfits) b
  | restart seconds =>
    refine ⟨?_, trivial⟩
    rcases h.retained with ⟨hstate, hreadings⟩ | ⟨low, high, haccounts, hkept⟩
    · rw [Chronicle.step, restart_of_empty hstate]
      exact ⟨h.fits, .inl ⟨rfl, hreadings⟩⟩
    · obtain ⟨restored, hrestart, hagrees⟩ := restart_of_tidy haccounts.tidy seconds
      rw [Chronicle.step, hrestart]
      exact ⟨h.fits, .inr ⟨low, high, haccounts.agrees hagrees, hkept⟩⟩

end Kept

/-- Along every run in which the log keeps what it has, no advance does harm exactly when none finds
a view in a segment of its boost that was never read. -/
theorem harmless_iff_takesBackRead {seconds : Int64} {log : σ} {steps : List (Step σ)}
    (hlog : (held log).length < 2 ^ 64)
    (happends : Along step Appends (start seconds log) steps) :
    Along step Harmless (start seconds log) steps ↔
      Along step TakesBackRead (start seconds log) steps := by
  constructor
  · refine Along.mono fun c a h => ?_
    cases a with
    | log log => trivial
    | advance now lookup =>
      exact fun v hv => exists_reading_of_resolution (Option.isSome_iff_ne_none.mp (h.2 v hv))
    | restart seconds => trivial
  · intro hread
    exact (Along.and_iff.mpr ⟨happends, hread⟩).derives (I := Kept)
      (fun c a ha h => h.step ha.1 ha.2) ⟨hlog, .inl ⟨rfl, rfl⟩⟩

/-- Two boosts are shown, and another view of the first is filed late at a given time. -/
def filedLate (ts : Int64) : List (Step Memory.Log) :=
  let views : List View := [.filed ⟨1, 1⟩ "urn:boost:newsfeed:a",
    .filed ⟨3, 1⟩ "urn:boost:newsfeed:a", .filed ⟨5, 1⟩ "urn:boost:newsfeed:b"]
  let late := View.filed ⟨ts, 1⟩ "urn:boost:newsfeed:a"
  [.advance 0 inNewsfeed, .log (.filing views), .advance 10 inNewsfeed,
    .log (.filing (late :: views)), .advance 1004 inNewsfeed]

/-- A late view outside the segments of its boost does no harm. -/
theorem harmless_of_late_past_segment : Along step Harmless (start 1 {}) (filedLate 4) :=
  (harmless_iff_takesBackRead (by decide) (by decide)).mpr (by decide)

/-- A late view inside a segment of its boost is taken back, and the total of the bucket loses a
view that the other boost still holds. -/
theorem harm_of_late_in_segment :
    Along step Appends (start 1 {}) (filedLate 2) ∧
      ¬Along step Harmless (start 1 {}) (filedLate 2) := by
  refine ⟨by decide, fun h => ?_⟩
  have htotal := h.2.2.2.2.1.1 ⟨.newsfeed, .general⟩
  revert htotal
  decide

end Chronicle

end Pacing
