import Pacing.Proofs.PhaseSemantics

/-!
# An intake cut in two

Two intakes in a row, the second up to a later time, read what one intake up to that time reads, the
one after the other. What an intake commits is told for each bucket by the number of views and for
each boost by the run of them, and both are those of the two halves put together. So the two leave
the state that the one leaves, entry by entry.
-/

namespace Pacing

open HonestSource (held)

/-! ## A run cut in two -/

namespace Segment

variable {p : Profile} {cursors more : List Cursor} {run : Segment}

/-- A run of views under a profile has that profile. -/
theorem profile_of_ofRun? (h : ofRun? (some p) cursors = some run) : run.profile = p := by
  obtain ⟨_, _, _, _, rfl⟩ := ofRun?_eq_some_iff.mp h
  rfl

/-- The run of views in two parts joins the runs of the parts. -/
theorem ofRun?_append (p : Profile) (cursors more : List Cursor) :
    ofRun? (some p) (cursors ++ more) =
      match ofRun? (some p) cursors, ofRun? (some p) more with
      | none, next => next
      | some run, none => some run
      | some run, some next => some (run.join next) := by
  induction more using List.reverseRecOn with
  | nil => cases h : ofRun? (some p) cursors <;> simp [h]
  | append_singleton more c ih =>
    rw [← List.append_assoc, ofRun?_concat, ofRun?_concat, ih]
    cases ofRun? (some p) cursors with
    | none => cases ofRun? (some p) more <;> rfl
    | some run => cases ofRun? (some p) more <;> rfl

end Segment

namespace Holding

/-- Two runs of one profile in a row are added like the run that they make. -/
theorem append_append (h : Holding) {run next : Segment} (hprofile : run.profile = next.profile) :
    (h.append run).append next = h.append (run.join next) := by
  obtain ⟨segments, isSealed⟩ := h
  rcases List.eq_nil_or_concat' segments with rfl | ⟨front, newest, rfl⟩
  · simp [append, hprofile]
  · rw [append_concat, append_concat]
    split
    · rename_i hjoin
      have hnext : newest.profile = next.profile := hjoin.2.trans hprofile
      rw [append_concat, if_pos ⟨rfl, hnext⟩, if_pos ⟨hjoin.1, hjoin.2⟩]
      simp [Segment.join, Nat.add_assoc]
    · rename_i hopen
      rw [append_concat, if_pos ⟨rfl, hprofile⟩]
      exact (if_neg hopen).symm

/-- What a boost holds after views of it at given cursors were read: nothing else if there were
none, the run of them if the boost was known, and a seal otherwise. -/
def read (held : Option Holding) (profile : Option Profile) (cursors : List Cursor) :
    Option Holding :=
  match profile with
  | none => if cursors = [] then held else held.map sealOff
  | some p =>
    match Segment.ofRun? (some p) cursors with
    | none => held
    | some run => some ((held.getD {}).append run)

/-- Reading views of a boost in two parts is reading them all. -/
theorem read_append (held : Option Holding) (profile : Option Profile)
    (cursors more : List Cursor) :
    read (read held profile cursors) profile more = read held profile (cursors ++ more) := by
  cases profile with
  | none =>
    by_cases hcursors : cursors = []
    · simp [read, hcursors]
    · by_cases hmore : more = []
      · simp [read, hmore]
      · cases held <;> simp [read, hcursors, hmore, sealOff]
  | some p =>
    simp only [read, Segment.ofRun?_append]
    cases hrun : Segment.ofRun? (some p) cursors with
    | none => cases Segment.ofRun? (some p) more <;> rfl
    | some run =>
      cases hnext : Segment.ofRun? (some p) more with
      | none => rfl
      | some next =>
        have hprofile : run.profile = next.profile :=
          (Segment.profile_of_ofRun? hrun).trans (Segment.profile_of_ofRun? hnext).symm
        simp [append_append _ hprofile]

end Holding

/-! ## A stage cut in two -/

namespace Intake

variable {lookup : Lookup} {views more : List View} {s s' t : Intake} {v : View} {b : Bucket}

/-- The cursors of a boost among views in two parts are those of the parts. -/
theorem cursorsOf_append (views more : List View) (id : String) :
    cursorsOf (views ++ more) id = cursorsOf views id ++ cursorsOf more id := by
  simp [cursorsOf]

/-- A boost has no cursors among views exactly if none of them is of it. -/
theorem cursorsOf_eq_nil_iff {id : String} :
    cursorsOf views id = [] ↔ ¬∃ v ∈ views, v.boost? = some id := by
  simp [cursorsOf]

/-- No bucket is listed as having gained nothing. -/
def Gains (s : Intake) : Prop := ∀ (b : Bucket) (n : Nat), s.gained[b]? = some n → 0 < n

/-- A view that is staged leaves it so: a bucket is listed once it has gained a view. -/
theorem Gains.assign (h : s.Gains) (id : String) (profile : Option Profile) (c : Cursor) :
    (s.assign id profile c).Gains := by
  cases profile with
  | none => exact h
  | some p =>
    intro b n hn
    have hfold := getElem?_foldl_alter (fun b : Bucket => b) (fun _ n => some (n.getD 0 + 1))
      p.buckets s.gained b
    rw [show (s.assign id (some p) c).gained = gain s.gained p from rfl, gain, hfold] at hn
    rcases List.eq_nil_or_concat' (p.buckets.filter (· = b)) with hnil | ⟨front, last, hlast⟩
    · rw [hnil] at hn
      exact h b n hn
    · rw [hlast, List.foldl_append] at hn
      rw [← Option.some.inj hn]
      exact Nat.succ_pos _

/-- A view that is read leaves it so. -/
theorem Gains.note (h : s.Gains) (hnote : Intake.note lookup s v = .ok s') : s'.Gains := by
  unfold Intake.note at hnote
  obtain ⟨tally, -, hnote⟩ := bind_eq_ok_iff.mp hnote
  simp only [pure, Except.pure] at hnote
  split at hnote
  · cases hnote
    exact h
  · split at hnote
    · cases hnote
      apply Gains.assign
      exact h
    · split at hnote
      · cases hnote
      · cases hnote
        apply Gains.assign
        exact h

/-- What views that are all noted add to a bucket, if anything. -/
theorem gained?_eq (hread : readWhile (Intake.note lookup) {} views = (s, none)) (b : Bucket) :
    s.gained[b]? =
      let n := views.countP fun v => b ∈ (Reading.under lookup v).buckets
      if n = 0 then none else some n := by
  have hempty : ({} : Intake).Gains := by simp [Gains]
  have hgains : s.Gains := @readWhile_relates _ _ (fun _ s => s.Gains)
    (fun h hnote => Gains.note h hnote) [] views _ s hempty hread
  have hcount := (sumsUp_of_readWhile hread).gained_eq b
  rw [Std.ExtTreeMap.getD_eq_getD_getElem?] at hcount
  rw [← hcount]
  cases hn : s.gained[b]? with
  | none => rfl
  | some n => simp [(hgains b n hn).ne']

end Intake

namespace WindowState

variable {lookup : Lookup} {views more : List View} {s t u : Intake}

/-- States are told by their entries and watermarks. -/
theorem ext_getElem? {state state' : WindowState}
    (htotals : ∀ b : Bucket, state.totals[b]? = state'.totals[b]?)
    (hholdings : ∀ id : String, state.holdings[id]? = state'.holdings[id]?)
    (hlow : state.low = state'.low) (hhigh : state.high = state'.high) : state = state' := by
  obtain ⟨totals, holdings, low, high⟩ := state
  obtain ⟨totals', holdings', low', high'⟩ := state'
  obtain rfl : totals = totals' := Std.ExtTreeMap.ext_getElem? fun {b} => htotals b
  obtain rfl : holdings = holdings' := Std.ExtTreeMap.ext_getElem? fun {id} => hholdings id
  rw [show low = low' from hlow, show high = high' from hhigh]

/-- An intake changes the entry of a bucket only if it read a view that counts there. -/
theorem total?_commitIntake (state : WindowState)
    (hread : readWhile (Intake.note lookup) {} views = (s, none)) (b : Bucket) :
    (state.commitIntake s).totals[b]? =
      let n := views.countP fun v => b ∈ (Reading.under lookup v).buckets
      if n = 0 then state.totals[b]? else some (state.total b + UInt64.ofNat n) := by
  have hfold := getElem?_foldl_combine (fun (x : UInt64) (n : Nat) => x + UInt64.ofNat n) 0
    s.gained.toList state.totals b
  rw [filter_toList, Intake.gained?_eq hread] at hfold
  refine hfold.trans ?_
  dsimp only
  split <;> simp [total, Std.ExtTreeMap.getD_eq_getD_getElem?]

/-- An intake leaves a boost what reading its views under one profile leaves it. -/
theorem holding_commitIntake_eq_read (state : WindowState) (hs : Intake.SumsUp lookup views s)
    (id : String) :
    (state.commitIntake s).holdings[id]? =
      Holding.read state.holdings[id]? (profileOf lookup id) (Intake.cursorsOf views id) := by
  rw [holding_commitIntake, hs.runs_eq]
  cases hprofile : profileOf lookup id with
  | none =>
    have hmissed : id ∈ s.missed ↔ Intake.cursorsOf views id ≠ [] := by
      rw [hs.mem_missed_iff, ne_eq, Intake.cursorsOf_eq_nil_iff, not_not]
      exact and_iff_left hprofile
    simp [Holding.read, hmissed]
  | some p =>
    have hmissed : id ∉ s.missed := fun hmem => by simp [hs.mem_missed_iff, hprofile] at hmem
    simp only [hmissed, if_false]
    rfl

/-- Committing two intakes in a row is committing one that noted the views of both. -/
theorem commitIntake_append (state : WindowState)
    (hs : readWhile (Intake.note lookup) {} views = (s, none))
    (ht : readWhile (Intake.note lookup) {} more = (t, none))
    (hu : readWhile (Intake.note lookup) {} (views ++ more) = (u, none)) :
    (state.commitIntake s).commitIntake t = state.commitIntake u := by
  refine ext_getElem? (fun b => ?_) (fun id => ?_) rfl ?_
  · have htotal := total_commitIntake state s b
    rw [(Intake.sumsUp_of_readWhile hs).gained_eq] at htotal
    rw [total?_commitIntake _ ht, total?_commitIntake _ hs, total?_commitIntake _ hu,
      List.countP_append, htotal]
    generalize views.countP (fun v => b ∈ (Reading.under lookup v).buckets) = m
    generalize more.countP (fun v => b ∈ (Reading.under lookup v).buckets) = n
    by_cases hm : m = 0
    · simp [hm]
    · by_cases hn : n = 0
      · simp [hm, hn]
      · simp [hm, hn, UInt64.ofNat_add, add_assoc]
  · rw [holding_commitIntake_eq_read _ (Intake.sumsUp_of_readWhile ht),
      holding_commitIntake_eq_read _ (Intake.sumsUp_of_readWhile hs),
      holding_commitIntake_eq_read _ (Intake.sumsUp_of_readWhile hu), Holding.read_append,
      Intake.cursorsOf_append]
  · simp only [high_commitIntake, (Intake.sumsUp_of_readWhile hs).tally_eq,
      (Intake.sumsUp_of_readWhile ht).tally_eq, (Intake.sumsUp_of_readWhile hu).tally_eq,
      List.getLast?_append]
    cases more.getLast? <;> rfl

end WindowState

/-! ## A scan cut in two -/

namespace Window

variable {σ : Type} [ViewSource σ] [HonestSource σ] {state : WindowState} {log : σ}
  {lookup : Lookup} {now later : Int64} {first second whole : Tally}

/-- An intake that is complete has noted what it read, reports that and commits it. -/
theorem noted_of_ingest_ok {tally : Tally}
    (hok : (ingest state now log lookup).result = .ok tally) :
    ∃ s, readWhile (Intake.note lookup) {} (freshViews state now log lookup) = (s, none) ∧
      tally = s.tally ∧ (ingest state now log lookup).state = state.commitIntake s := by
  obtain ⟨-, ⟨e, hresult, -⟩ | ⟨s, hread, hresult, hstate⟩⟩ := ingest_outcome state now log lookup
  · rw [hresult] at hok
    cases hok
  · rw [hresult] at hok
    exact ⟨s, hread, (Except.ok.inj hok).symm, hstate⟩

/-- What is too late for a scan lies past all that the scan has read. -/
private theorem reach_lt_of_not_le {views : List View} {high c : Cursor} (hhigh : high < c)
    (hnow : ∀ v ∈ views, v.cursor.ts ≤ now) (hc : ¬c.ts ≤ now) : reach views high < c := by
  rw [← Cursor.le_ceiling_iff, not_le] at hc
  rcases reach_eq_or views high with hreach | ⟨w, hw, hreach⟩
  · rwa [hreach]
  · rw [← hreach]
    exact lt_of_le_of_lt (Cursor.le_ceiling_iff.mpr (hnow w hw)) hc

/-- What is read up to a later time is what is read up to an earlier time and then on from there. -/
theorem freshViews_append (hle : now ≤ later)
    (hfirst : (ingest state now log lookup).result = .ok first)
    (hsecond : (ingest (ingest state now log lookup).state later (ingest state now log lookup).log
      lookup).result = .ok second)
    (hwhole : (ingest state later log lookup).result = .ok whole) :
    freshViews state later log lookup = freshViews state now log lookup ++
      freshViews (ingest state now log lookup).state later (ingest state now log lookup).log
        lookup := by
  cases hhigh : state.high with
  | none => simp [freshViews, ingest, ingestBy, scanIntake, Scanned.commitBy, hhigh]
  | some high =>
    obtain ⟨hlog, s, hs, hstate⟩ := ingest_spec state now log lookup
    obtain ⟨-, t, ht, -⟩ := ingest_spec (ingest state now log lookup).state later
      (ingest state now log lookup).log lookup
    obtain ⟨-, u, hu, -⟩ := ingest_spec state later log lookup
    have hreached : (ingest state now log lookup).state.high =
        some (reach (freshViews state now log lookup) high) := by
      rw [hstate]
      exact hs.high_eq_reach hhigh
    have hpast : high ≤ reach (freshViews state now log lookup) high :=
      start_le_reach fun v hv => (of_mem_freshViews hhigh hv).2.1
    refine eq_of_rising hu.rising (List.pairwise_append.mpr ⟨hs.rising, ht.rising, ?_⟩) fun v => ?_
    · intro v hv w hw
      exact lt_of_le_of_lt (le_reach hs.rising hv) (of_mem_freshViews hreached hw).2.1
    · rw [List.mem_append]
      constructor
      · intro hv
        obtain ⟨hheld, hlow, hlater⟩ := of_mem_freshViews hhigh hv
        by_cases hnow : v.cursor.ts ≤ now
        · left
          rw [freshViews_of_ok hhigh hfirst]
          simpa using ⟨hheld, hlow, hnow⟩
        · right
          rw [freshViews_of_ok hreached hsecond, hlog]
          have hreach : reach (freshViews state now log lookup) high < v.cursor :=
            reach_lt_of_not_le hlow (fun w hw => (of_mem_freshViews hhigh hw).2.2) hnow
          simpa using ⟨hheld, hreach, hlater⟩
      · rw [freshViews_of_ok hhigh hwhole]
        rintro (hv | hv)
        · obtain ⟨hheld, hlow, hnow⟩ := of_mem_freshViews hhigh hv
          simpa using ⟨hheld, hlow, Int64.le_trans hnow hle⟩
        · obtain ⟨hheld, hreach, hlater⟩ := of_mem_freshViews hreached hv
          rw [hlog] at hheld
          simpa using ⟨hheld, lt_of_le_of_lt hpast hreach, hlater⟩

/-- Two intakes in a row, the second up to a later time, leave exactly the state that one intake up
to that time leaves, whatever the state was, and report together what it reports. -/
theorem ingest_split {state : WindowState} {log : σ} {lookup : Lookup} {now later : Int64}
    {first second whole : Tally} (hle : now ≤ later) :
    let once := ingest state now log lookup
    let twice := ingest once.state later once.log lookup
    let atOnce := ingest state later log lookup
    once.result = .ok first → twice.result = .ok second → atOnce.result = .ok whole →
      twice.state = atOnce.state ∧ whole.events = first.events + second.events ∧
        whole.counted = first.counted + second.counted ∧
        whole.unresolved = first.unresolved + second.unresolved := by
  intro once twice atOnce hfirst hsecond hwhole
  have hviews := freshViews_append hle hfirst hsecond hwhole
  obtain ⟨s, hs, rfl, hstate⟩ := noted_of_ingest_ok hfirst
  obtain ⟨t, ht, rfl, hstate'⟩ := noted_of_ingest_ok hsecond
  obtain ⟨u, hu, rfl, hwholeState⟩ := noted_of_ingest_ok hwhole
  rw [hviews] at hu
  refine ⟨?_, ?_⟩
  · calc twice.state
        = (state.commitIntake s).commitIntake t := hstate'.trans (by rw [hstate])
      _ = state.commitIntake u := state.commitIntake_append hs ht hu
      _ = atOnce.state := hwholeState.symm
  · rw [(Intake.sumsUp_of_readWhile hs).tally_eq, (Intake.sumsUp_of_readWhile ht).tally_eq,
      (Intake.sumsUp_of_readWhile hu).tally_eq]
    exact ⟨List.length_append, List.countP_append, List.countP_append⟩

/-- A window rebuilt from a snapshot that no run would save: a bucket that is full to the last bit,
a total of zero, and a boost with a segment past the high watermark. -/
def resumed : WindowState where
  totals := (∅ : Std.ExtTreeMap Bucket UInt64)
    |>.insert ⟨.newsfeed, .general⟩ 18446744073709551615 |>.insert ⟨.sidebar, .general⟩ 0
  holdings := (∅ : Std.ExtTreeMap String Holding)
    |>.insert "a" ⟨[⟨⟨.newsfeed, true⟩, ⟨1, 1⟩, ⟨2, 0⟩, 2⟩], false⟩
    |>.insert "b" ⟨[⟨⟨.sidebar, false⟩, ⟨9, 1⟩, ⟨9, 1⟩, 4⟩], false⟩
  low := some ⟨1, 0⟩
  high := some ⟨2, 0⟩

/-- Views of a boost that is held, of one that is unknown by now, of a new one, and of none. -/
def mixedViews : Memory.Log := .filing [.filed ⟨3, 1⟩ "urn:boost:newsfeed:a",
  .filed ⟨4, 1⟩ "urn:boost:sidebar:b", .filed ⟨5, 1⟩ "urn:boost:newsfeed:c",
  .filed ⟨6, 1⟩ "urn:boost:newsfeed:a", .filed ⟨7, 1⟩ "urn:boost:sidebar:b", .filed ⟨8, 1⟩ "none"]

/-- A repository that does not know the boost `b`. -/
def withoutB : Lookup := fun id =>
  .ok (if id = "b" then none else some { id, location := .newsfeed, safeForAll := true })

/-- Reading known, unknown and untagged views in two intakes leaves what one intake leaves. -/
theorem ingest_split_resumed :
    let once := ingest resumed 5 mixedViews withoutB
    let twice := ingest once.state 9 once.log withoutB
    let atOnce := ingest resumed 9 mixedViews withoutB
    (5 : Int64) ≤ 9 ∧ once.result = .ok ⟨3, 2, 1, some ⟨5, 1⟩⟩ ∧
      twice.result = .ok ⟨3, 1, 2, some ⟨8, 1⟩⟩ ∧ atOnce.result = .ok ⟨6, 3, 3, some ⟨8, 1⟩⟩ ∧
      twice.state = atOnce.state ∧ 6 = 3 + 3 ∧ 3 = 2 + 1 ∧ 3 = 1 + 2 := by
  intro once twice atOnce
  have honce : once.result = .ok ⟨3, 2, 1, some ⟨5, 1⟩⟩ := by decide
  have htwice : twice.result = .ok ⟨3, 1, 2, some ⟨8, 1⟩⟩ := by decide
  have hatOnce : atOnce.result = .ok ⟨6, 3, 3, some ⟨8, 1⟩⟩ := by decide
  exact ⟨by decide, honce, htwice, hatOnce, ingest_split (by decide) honce htwice hatOnce⟩

end Window

end Pacing
