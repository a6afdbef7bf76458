import Pacing.Proofs.SplitIntakes

/-!
# One lookup for each boost

An intake remembers what the repository answered for a boost, be it a profile or nothing, and asks
no second time. A complete intake so has asked once for every boost that a view names, and for no
other, and has counted all views of a boost under the one profile that it was told.
-/

namespace Pacing

/-- Whether a view names no boost, or one that a repository does not know. -/
def View.isUnresolved (lookup : Lookup) (v : View) : Bool :=
  match v.boost? with
  | none => true
  | some id =>
    match lookup id with
    | .ok boost => boost.isNone
    | .error _ => false

/-- A scan is read alike by two stages that take each of its views alike. -/
theorem readWhile_congr {σ : Type} {note note' : σ → View → Except ScanError σ}
    {views : List View} (h : ∀ v ∈ views, ∀ s, note s v = note' s v) (s : σ) :
    readWhile note s views = readWhile note' s views := by
  induction views generalizing s with
  | nil => rfl
  | cons v rest ih =>
    obtain ⟨hv, hrest⟩ := List.forall_mem_cons.mp h
    rw [readWhile, readWhile, hv s]
    cases note' s v with
    | ok s' => exact ih hrest s'
    | error e => rfl

/-- Any views of a boost that is known make a run. -/
theorem Segment.exists_ofRun? (p : Profile) {cursors : List Cursor} (hne : cursors ≠ []) :
    ∃ run, ofRun? (some p) cursors = some run := by
  obtain ⟨first, rest, rfl⟩ := List.exists_cons_of_ne_nil hne
  exact ⟨_, ofRun?_eq_some_iff.mpr ⟨first, _, rfl, List.getLast?_eq_some_getLast hne, rfl⟩⟩

/-- A boost without views is left alone. -/
theorem Holding.read_nil (held : Option Holding) (profile : Option Profile) :
    read held profile [] = held := by
  cases profile <;> simp [read]

namespace Intake

variable {lookup lookup' : Lookup} {s s' : Intake} {v : View} {views : List View}

/-- Counting a view asks for no boost. -/
@[simp] theorem asked_assign (s : Intake) (id : String) (profile : Option Profile) (c : Cursor) :
    (s.assign id profile c).asked = s.asked := by
  cases profile <;> rfl

/-- Counting a view leaves what is known of the boosts as it is. -/
@[simp] theorem known_assign (s : Intake) (id : String) (profile : Option Profile) (c : Cursor) :
    (s.assign id profile c).known = s.known := by
  cases profile <;> rfl

/-- The boosts that the repository was asked for are those whose answer is remembered, each once. -/
structure AskedOnce (s : Intake) : Prop where
  nodup : s.asked.Nodup
  mem_iff (id : String) : id ∈ s.asked ↔ s.known[id]?.isSome = true

/-- At first no boost has been asked for. -/
theorem AskedOnce.empty : AskedOnce {} := ⟨List.nodup_nil, by simp⟩

/-- A view is staged without a question, or with one whose answer was not known. -/
theorem AskedOnce.note (h : s.AskedOnce) (hnote : Intake.note lookup s v = .ok s') :
    s'.AskedOnce := by
  unfold Intake.note at hnote
  obtain ⟨tally, -, hnote⟩ := bind_eq_ok_iff.mp hnote
  simp only [pure, Except.pure] at hnote
  split at hnote
  · cases hnote
    exact ⟨h.nodup, h.mem_iff⟩
  · rename_i id _
    split at hnote
    · cases hnote
      exact ⟨by simpa using h.nodup, by simpa using h.mem_iff⟩
    · rename_i hunknown
      split at hnote
      · cases hnote
      · cases hnote
        have hnew : id ∉ s.asked := by simpa [h.mem_iff] using hunknown
        refine ⟨?_, fun i => ?_⟩
        · rw [asked_assign, ← List.concat_eq_append]
          exact h.nodup.concat hnew
        · simp only [asked_assign, known_assign, List.mem_append, List.mem_singleton, h.mem_iff,
            Std.ExtTreeMap.getElem?_insert, Std.LawfulEqCmp.compare_eq_iff_eq]
          by_cases hi : id = i
          · simp [hi]
          · simp [hi, Ne.symm hi]

/-- How a view is taken depends on the answer for its boost alone. -/
theorem note_congr (h : ∀ id ∈ v.boost?, lookup' id = lookup id) (s : Intake) :
    note lookup' s v = note lookup s v := by
  unfold note
  rw [show CampaignTag.resolve? v.tag = v.boost? from rfl]
  cases hboost : v.boost? with
  | none => rfl
  | some id => simp only [h id hboost]

/-- A complete intake has asked for the boosts of the views that it read, each once. -/
theorem askedOnce_of_readWhile (hread : readWhile (note lookup) {} views = (s, none)) :
    s.asked.Nodup ∧ ∀ id, id ∈ s.asked ↔ ∃ v ∈ views, v.boost? = some id := by
  have hasked : s.AskedOnce := @readWhile_relates _ _ (fun _ s => s.AskedOnce)
    (fun h hnote => h.note hnote) [] views _ s .empty hread
  refine ⟨hasked.nodup, fun id => ?_⟩
  rw [hasked.mem_iff, (sumsUp_of_readWhile hread).known_eq]
  split <;> simp_all

/-- The views of no known boost are those that a complete intake has left out. -/
theorem SumsUp.unresolved_eq (h : SumsUp lookup views s) :
    s.tally.unresolved = views.countP (·.isUnresolved lookup) := by
  rw [h.tally_eq]
  refine List.countP_congr fun v hv => ?_
  unfold View.isUnresolved Reading.under
  cases hboost : v.boost? with
  | none => simp
  | some id =>
    obtain ⟨boost, hlookup⟩ := h.answered v hv id hboost
    simp [profileOf, hlookup]

/-- Every view that a complete intake has read is counted or left out. -/
theorem SumsUp.counted_add_unresolved (h : SumsUp lookup views s) :
    s.tally.counted + s.tally.unresolved = s.tally.events := by
  rw [h.tally_eq]
  simp only [List.length_eq_countP_add_countP fun v => (Reading.under lookup v).profile.isSome]
  congr 1
  refine List.countP_congr fun v _ => ?_
  cases (Reading.under lookup v).profile <;> simp

end Intake

namespace Window

variable {σ : Type} [ViewSource σ] {state : WindowState} {log : σ} {lookup lookup' : Lookup}
  {now : Int64}

/-- The views that the log hands out to an intake; it is not asked for any when the range is
empty. -/
def handedOut (state : WindowState) (now : Int64) (log : σ) : List View :=
  match state.high with
  | none => []
  | some high =>
    if (Intake.range high now).isEmpty then []
    else
      match (ViewSource.query log (Intake.range high now)).1 with
      | .ok scan => scan.views
      | .error _ => []

/-- A complete intake has noted all views handed out, reports them and commits them. -/
theorem noted_handedOut_of_ingest_ok {tally : Tally}
    (hok : (ingest state now log lookup).result = .ok tally) :
    ∃ s, readWhile (Intake.note lookup) {} (handedOut state now log) = (s, none) ∧
      s.tally = tally ∧ s.asked = (ingest state now log lookup).asked ∧
      (ingest state now log lookup).state = state.commitIntake s := by
  have hend := ingestEnd state now log lookup
  unfold handedOut
  generalize ingest state now log lookup = done at hend hok ⊢
  cases hend with
  | idle hempty =>
    refine ⟨{}, ?_, Except.ok.inj hok, rfl, state.commitIntake_empty.symm⟩
    cases hhigh : state.high with
    | none => rfl
    | some high => simp [hempty high hhigh, readWhile]
  | unanswered => cases hok
  | abandoned => cases hok
  | @complete high _ scan s hhigh hasked hquery hread =>
    refine ⟨s, ?_, Except.ok.inj hok, rfl, rfl⟩
    simpa [hhigh, hasked, hquery] using (readScan_eq_complete_iff.mp hread).2

/-- What an intake stages depends on the answers for the boosts of the views handed out alone. -/
theorem scanIntake_congr
    (h : ∀ v ∈ handedOut state now log, ∀ id ∈ v.boost?, lookup' id = lookup id) :
    scanIntake state now log lookup' = scanIntake state now log lookup := by
  unfold handedOut at h
  unfold scanIntake
  cases hhigh : state.high with
  | none => rfl
  | some high =>
    rw [hhigh] at h
    dsimp only at h ⊢
    split
    · rfl
    · rename_i hasked
      rw [if_neg hasked] at h
      cases hquery : ViewSource.query log (Intake.range high now) with
      | mk answer log' =>
        rw [hquery] at h
        cases answer with
        | error e => rfl
        | ok scan =>
          have hread : readScan .ingest (Intake.note lookup') {} scan =
              readScan .ingest (Intake.note lookup) {} scan := by
            unfold readScan
            rw [readWhile_congr fun v hv s => Intake.note_congr (h v hv) s]
          simp only [hread]

/-- What an intake does depends on the answers for the boosts of the views handed out alone. -/
theorem ingest_congr
    (h : ∀ v ∈ handedOut state now log, ∀ id ∈ v.boost?, lookup' id = lookup id) :
    ingest state now log lookup' = ingest state now log lookup :=
  congrArg (Scanned.commitBy WindowState.commitIntake state) (scanIntake_congr h)

/-- A complete intake has asked for each boost of the views handed out once, and for no other: with
other answers for other boosts it does the same. It adds all views of a boost as one run under the
profile found, or none of them and a seal when nothing is found, and leaves other boosts alone.
Every view counts in the buckets of the profile of its boost. The views that are not counted are
those of no boost or of one that is not found. -/
theorem ingest_looks_up_once {tally : Tally}
    (hok : (ingest state now log lookup).result = .ok tally) :
    let done := ingest state now log lookup
    let views := handedOut state now log
    done.asked.Nodup ∧ (∀ id, id ∈ done.asked ↔ ∃ v ∈ views, v.boost? = some id) ∧
      (∀ lookup' : Lookup, (∀ id ∈ done.asked, lookup' id = lookup id) →
        ingest state now log lookup' = done) ∧
      (∀ id ∈ done.asked,
        (∃ boost, lookup id = .ok (some boost) ∧
          ∃ run, Segment.ofRun? (some boost.profile) (Intake.cursorsOf views id) = some run ∧
            done.state.holdings[id]? = some ((state.holdings[id]?.getD {}).append run)) ∨
        (lookup id = .ok none ∧
          done.state.holdings[id]? = state.holdings[id]?.map Holding.sealOff)) ∧
      (∀ id, id ∉ done.asked → done.state.holdings[id]? = state.holdings[id]?) ∧
      (∀ b, done.state.total b = state.total b +
        UInt64.ofNat (views.countP fun v => b ∈ (Reading.under lookup v).buckets)) ∧
      tally.events = views.length ∧ tally.counted + tally.unresolved = tally.events ∧
      tally.unresolved = views.countP (·.isUnresolved lookup) := by
  intro done views
  obtain ⟨s, hread, htally, hasked, hstate⟩ := noted_handedOut_of_ingest_ok hok
  have hsum := Intake.sumsUp_of_readWhile hread
  obtain ⟨hnodup, hmem⟩ := Intake.askedOnce_of_readWhile hread
  rw [hasked] at hnodup hmem
  have hholding (id : String) := state.holding_commitIntake_eq_read hsum id
  rw [← hstate] at hholding
  refine ⟨hnodup, hmem, fun lookup' hanswers => ?_, fun id hid => ?_, fun id hid => ?_,
    fun b => ?_, ?_, ?_, ?_⟩
  · exact ingest_congr fun v hv id hid => hanswers id ((hmem id).mpr ⟨v, hv, hid⟩)
  · obtain ⟨v, hv, hboost⟩ := (hmem id).mp hid
    obtain ⟨boost, hlookup⟩ := hsum.answered v hv id hboost
    have hne : Intake.cursorsOf views id ≠ [] := by
      rw [ne_eq, Intake.cursorsOf_eq_nil_iff, not_not]
      exact ⟨v, hv, hboost⟩
    have hheld := hholding id
    rw [profileOf, hlookup] at hheld
    cases boost with
    | none => exact .inr ⟨hlookup, hheld.trans (if_neg hne)⟩
    | some boost =>
      obtain ⟨run, hrun⟩ := Segment.exists_ofRun? boost.profile hne
      refine .inl ⟨boost, hlookup, run, hrun, hheld.trans ?_⟩
      simp only [Option.map_some, Holding.read, views, hrun]
  · have hnone : Intake.cursorsOf views id = [] := by
      rwa [Intake.cursorsOf_eq_nil_iff, ← hmem]
    exact (hholding id).trans (by rw [hnone, Holding.read_nil])
  · rw [hstate, WindowState.total_commitIntake, hsum.gained_eq]
  · rw [← htally, hsum.tally_eq]
  · rw [← htally, hsum.counted_add_unresolved]
  · rw [← htally, hsum.unresolved_eq]

/-- Of six views two are of a boost that is unknown, and it is asked for only once, like the boost of
two views that is known. -/
theorem ingest_looks_up_once_mixed :
    let done := ingest resumed 9 mixedViews withoutB
    let views := handedOut resumed 9 mixedViews
    let tally : Tally := ⟨6, 3, 3, some ⟨8, 1⟩⟩
    done.result = .ok tally ∧ done.asked = ["a", "b", "c"] ∧
      done.asked.Nodup ∧ (∀ id, id ∈ done.asked ↔ ∃ v ∈ views, v.boost? = some id) ∧
      (∀ lookup' : Lookup, (∀ id ∈ done.asked, lookup' id = withoutB id) →
        ingest resumed 9 mixedViews lookup' = done) ∧
      (∀ id ∈ done.asked,
        (∃ boost, withoutB id = .ok (some boost) ∧
          ∃ run, Segment.ofRun? (some boost.profile) (Intake.cursorsOf views id) = some run ∧
            done.state.holdings[id]? = some ((resumed.holdings[id]?.getD {}).append run)) ∨
        (withoutB id = .ok none ∧
          done.state.holdings[id]? = resumed.holdings[id]?.map Holding.sealOff)) ∧
      (∀ id, id ∉ done.asked → done.state.holdings[id]? = resumed.holdings[id]?) ∧
      (∀ b, done.state.total b = resumed.total b +
        UInt64.ofNat (views.countP fun v => b ∈ (Reading.under withoutB v).buckets)) ∧
      tally.events = views.length ∧ tally.counted + tally.unresolved = tally.events ∧
      tally.unresolved = views.countP (·.isUnresolved withoutB) := by
  intro done views tally
  have hok : done.result = .ok tally := by decide
  exact ⟨hok, by decide, ingest_looks_up_once hok⟩

end Window

end Pacing
