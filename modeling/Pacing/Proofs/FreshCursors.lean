import Pacing.Proofs.BatchWrites
import Pacing.Proofs.DaySelection

/-!
# Sequence numbers for recorded views

A view that is recorded takes the sequence number after the greatest one that its millisecond has in
the table. The table is searched under one day only, that of the timestamp. As long as every view is
filed under the day of its own timestamp, on a date or not, that day has all views of the
millisecond. So no two views share a cursor, and a millisecond is refused only when it is full.
-/

namespace Pacing

namespace Cursor

/-- The last cursor that a view of a timestamp can have. -/
def top (ts : Int64) : Cursor := ⟨ts, 4294967294⟩

/-- The cursor of a timestamp with a given sequence number, if a view can have it. -/
def numbered? (ts : Int64) (n : Nat) : Option Cursor :=
  if n ≤ 4294967294 then some ⟨ts, UInt32.ofNat n⟩ else none

/-- Cursors are the same when their timestamps and their sequence numbers are. -/
theorem eq_iff {a b : Cursor} : a = b ↔ a.ts = b.ts ∧ a.seq.toNat = b.seq.toNat := by
  rw [UInt32.toNat_inj, mk.injEq]

/-- Views of a timestamp have the sequence numbers from 1 to that of the last cursor. -/
theorem isBoundary_eq_false_iff {c : Cursor} :
    c.isBoundary = false ↔ 0 < c.seq.toNat ∧ c.seq.toNat ≤ 4294967294 := by
  have := c.seq.toNat_lt
  simp only [isBoundary, Bool.or_eq_false_iff, beq_eq_false_iff_ne, ne_eq, ← UInt32.toNat_inj]
  simp
  omega

end Cursor

namespace Store

variable {views views' : List View} {v : View} {ts ts' : Int64} {n : Nat}

/-! ## The numbers in use -/

/-- The greatest sequence number that the views of a timestamp have; 0 without such a view. -/
def highestSequence (views : List View) (ts : Int64) : Nat :=
  (views.filter (·.cursor.ts = ts)).foldr (fun v n => max v.cursor.seq.toNat n) 0

/-- The highest sequence number of a timestamp is at most a number that no view of the timestamp
exceeds. -/
theorem highestSequence_le_iff :
    highestSequence views ts ≤ n ↔ ∀ v ∈ views, v.cursor.ts = ts → v.cursor.seq.toNat ≤ n := by
  have hfold : ∀ vs : List View,
      vs.foldr (fun v n => max v.cursor.seq.toNat n) 0 ≤ n ↔ ∀ v ∈ vs, v.cursor.seq.toNat ≤ n := by
    intro vs
    induction vs with
    | nil => simp
    | cons v rest ih => rw [List.foldr_cons, Nat.max_le, ih, List.forall_mem_cons]
  rw [highestSequence, hfold]
  simp only [List.mem_filter, decide_eq_true_eq, and_imp]

/-- No view of a timestamp exceeds its highest sequence number. -/
theorem seq_le_highestSequence (hv : v ∈ views) (hts : v.cursor.ts = ts) :
    v.cursor.seq.toNat ≤ highestSequence views ts :=
  highestSequence_le_iff.mp (Nat.le_refl _) v hv hts

/-- The greatest sequence number depends only on which views there are. -/
theorem highestSequence_eq_of_mem_iff (h : ∀ v, v ∈ views ↔ v ∈ views') :
    highestSequence views ts = highestSequence views' ts :=
  eq_of_forall_ge_iff fun n => by simp only [highestSequence_le_iff, h]

/-- One more view can raise the highest sequence number of its own timestamp alone. -/
theorem highestSequence_concat (views : List View) (v : View) (ts : Int64) :
    highestSequence (views ++ [v]) ts =
      if v.cursor.ts = ts then max (highestSequence views ts) v.cursor.seq.toNat
      else highestSequence views ts := by
  refine eq_of_forall_ge_iff fun n => ?_
  rw [highestSequence_le_iff, List.forall_mem_append, List.forall_mem_singleton,
    ← highestSequence_le_iff]
  split <;> simp_all

/-- The greatest number is in use, unless it is 0. -/
theorem exists_of_highestSequence_eq (hn : highestSequence views ts = n + 1) :
    ∃ v ∈ views, v.cursor.ts = ts ∧ v.cursor.seq.toNat = n + 1 := by
  by_contra hnone
  push Not at hnone
  have hle : highestSequence views ts ≤ n := by
    refine highestSequence_le_iff.mpr fun v hv hts => ?_
    have hlast := highestSequence_le_iff.mp (Nat.le_of_eq hn) v hv hts
    have := hnone v hv hts
    omega
  omega

/-- The greatest of some whole numbers in cells. -/
theorem Cell.greatest_map_integer {ns : List Int} (hne : ns ≠ []) :
    ∃ n ∈ ns, (∀ m ∈ ns, m ≤ n) ∧ greatest (ns.map integer) = integer n := by
  obtain ⟨a, rest, rfl⟩ := List.exists_cons_of_ne_nil hne
  obtain ⟨n, hn, hgreatest, hfold⟩ := foldl_prefer .gt (by decide) rest a
  refine ⟨n, hn, fun m hm => ?_, ?_⟩
  · have hm := hgreatest m hm
    rw [ne_eq, Int.compare_eq_gt] at hm
    exact Int.not_lt.mp hm
  · rw [← hfold]
    simp [greatest, prefer]

/-- What the table knows as the greatest sequence number of a timestamp is that of its views. -/
theorem ViewTable.lastSequence_eq {t : ViewTable} (hrows : t.rows = views.map ViewRow.ofView)
    (hfiled : FiledByTime views) (ts : Int64) :
    ∃ last, t.lastSequence (.ofTimestamp ts) ts = .ok last ∧
      last.getD 0 = highestSequence views ts := by
  have hts (v : View) :
      compare (ViewRow.ofView v).ts (.integer ts.toInt) = .eq ↔ v.cursor.ts = ts := by
    rw [← Int64.toInt_inj, ← Int.compare_eq_eq, ViewRow.ofView, Cell.compare_integer]
  have hcells : (t.rows.filter fun r =>
      r.IsFiledUnder (.ofTimestamp ts) ∧ compare r.ts (.integer ts.toInt) = .eq).map (·.seq) =
      ((views.filter (·.cursor.ts = ts)).map fun v => (v.cursor.seq.toNat : Int)).map
        Cell.integer := by
    rw [hrows, List.filter_map, List.map_map, List.map_map]
    congr 1
    refine List.filter_congr fun v hv => ?_
    -- A view at the timestamp is filed under its day, so looking there misses none.
    rw [Function.comp_apply, decide_eq_decide, ViewRow.isFiledUnder_ofView, hts, hfiled v hv,
      and_iff_right_iff_imp]
    rintro rfl
    rfl
  simp only [lastSequence, hcells]
  by_cases hnone : views.filter (·.cursor.ts = ts) = []
  · exact ⟨none, by rw [hnone]; rfl, by rw [highestSequence, hnone]; rfl⟩
  · have hnumbers :
        ((views.filter (·.cursor.ts = ts)).map fun v => (v.cursor.seq.toNat : Int)) ≠ [] := by
      simpa using hnone
    obtain ⟨n, hn, hgreatest, hcell⟩ := Cell.greatest_map_integer hnumbers
    have hmem (v : View) : v ∈ views.filter (·.cursor.ts = ts) ↔ v ∈ views ∧ v.cursor.ts = ts := by
      simp
    refine ⟨some n, by rw [hcell]; rfl, ?_⟩
    obtain ⟨v, hv, rfl⟩ := List.mem_map.mp hn
    obtain ⟨hv, hvts⟩ := (hmem v).mp hv
    rw [Option.getD_some, Int.natCast_inj]
    refine Nat.le_antisymm (seq_le_highestSequence hv hvts) ?_
    refine highestSequence_le_iff.mpr fun w hw hwts => ?_
    exact_mod_cast hgreatest _ (List.mem_map_of_mem ((hmem w).mpr ⟨hw, hwts⟩))

/-! ## One view -/

namespace Archive

/-- The table of an archive has the views that were written, each under the day of its timestamp and
with a sequence number that is not reserved. -/
structure Orderly (a : Archive) : Prop where
  stores : a.database.Stores a.written
  filed : FiledByTime a.written
  unreserved : ∀ v ∈ a.written, v.cursor.isBoundary = false

namespace Orderly

variable {a : Archive} {tag : String}

/-- The table of an orderly archive. -/
theorem exists_table (h : a.Orderly) : ∃ t, a.database.views = some t ∧
    t.rows = (Memory.Log.filing a.written).views.map ViewRow.ofView :=
  Option.map_eq_some_iff.mp h.stores.rows_eq

/-- A log in memory of what was written has the views that were written. -/
theorem mem_filing_iff (h : a.Orderly) (v : View) :
    v ∈ (Memory.Log.filing a.written).views ↔ v ∈ a.written := h.stores.perm.mem_iff

/-- Views that were written under the days of their timestamps all have different cursors. -/
theorem nodup_cursors (h : a.Orderly) : (a.written.map View.cursor).Nodup := by
  have hdistinct : (Memory.Log.filing a.written).views.Pairwise (·.cursor ≠ ·.cursor) := by
    refine (Memory.Log.filing a.written).ordered.imp_of_mem fun {v w} hv hw hbefore heq => ?_
    have hday : v.day = w.day := by
      rw [h.filed v ((h.mem_filing_iff v).mp hv), h.filed w ((h.mem_filing_iff w).mp hw), heq]
    refine v.not_before_self ?_
    rwa [View.Before, ← hday, ← heq] at hbefore
  exact (h.stores.perm.map View.cursor).nodup_iff.mp (List.pairwise_map.mpr hdistinct)

/-- No timestamp has a view with the sequence number that only ceilings have. -/
theorem highestSequence_le (h : a.Orderly) (ts : Int64) :
    highestSequence a.written ts ≤ 4294967294 :=
  highestSequence_le_iff.mpr fun v hv _ =>
    (Cursor.isBoundary_eq_false_iff.mp (h.unreserved v hv)).2

/-- The numbers of a timestamp are used up exactly when its last cursor is. -/
theorem top_mem_iff (h : a.Orderly) (ts : Int64) :
    Cursor.top ts ∈ a.written.map View.cursor ↔ highestSequence a.written ts = 4294967294 := by
  rw [List.mem_map]
  constructor
  · rintro ⟨v, hv, hcursor⟩
    have hlast := seq_le_highestSequence hv (congrArg Cursor.ts hcursor)
    rw [hcursor] at hlast
    exact Nat.le_antisymm (h.highestSequence_le ts) hlast
  · intro hfull
    obtain ⟨v, hv, hts, hseq⟩ := exists_of_highestSequence_eq hfull
    exact ⟨v, hv, Cursor.eq_iff.mpr ⟨hts, hseq⟩⟩

/-- A view may be written under the next number of its timestamp while there is one. -/
theorem admits_next (h : a.Orderly) {t : ViewTable} (htable : a.database.views = some t) {n : Nat}
    (hnext : highestSequence a.written ts + 1 = n) (hfree : n ≤ 4294967294) :
    t.Admits (.filed ⟨ts, UInt32.ofNat n⟩ tag) := by
  have hseq : (UInt32.ofNat n).toNat = n :=
    UInt32.toNat_ofNat_of_lt' (Nat.lt_of_le_of_lt hfree (by decide))
  refine ⟨Cursor.isBoundary_eq_false_iff.mpr ⟨?_, ?_⟩, ?_⟩
  · show 0 < (UInt32.ofNat n).toNat
    omega
  · show (UInt32.ofNat n).toNat ≤ 4294967294
    omega
  · rintro ⟨r, hr, heq⟩
    obtain ⟨t', ht', hrows⟩ := h.exists_table
    cases htable.symm.trans ht'
    rw [hrows] at hr
    obtain ⟨v, hv, rfl⟩ := List.mem_map.mp hr
    obtain ⟨-, hcursor⟩ := ViewRow.compare_ofView_eq_eq.mp heq
    have hlast := seq_le_highestSequence ((h.mem_filing_iff v).mp hv)
      (congrArg Cursor.ts hcursor.symm)
    rw [← hcursor] at hlast
    simp only [View.filed, hseq] at hlast
    omega

/-- What comes of recording a view. It takes the next number of its timestamp, as long as there is
one; otherwise it is refused. -/
theorem record_cases (h : a.Orderly) (ts : Int64) (tag : String) {n : Nat}
    (hnext : highestSequence a.written ts + 1 = n) :
    (n ≤ 4294967294 ∧ ∃ db, a.database.record ts tag = .ok (db, ⟨ts, UInt32.ofNat n⟩)) ∨
      (n = 4294967295 ∧
        a.database.record ts tag = .error (.reservedSequence (.ceiling ts))) := by
  obtain ⟨t, ht, hrows⟩ := h.exists_table
  have hfiled : FiledByTime (Memory.Log.filing a.written).views :=
    fun v hv => h.filed v ((h.mem_filing_iff v).mp hv)
  obtain ⟨last, hlast, hhighest⟩ := ViewTable.lastSequence_eq hrows hfiled ts
  rw [highestSequence_eq_of_mem_iff h.mem_filing_iff] at hhighest
  have hsum : last.getD 0 + 1 = (n : Int) := by omega
  have hle := h.highestSequence_le ts
  have hrecord : a.database.record ts tag =
      (a.database.append (.filed ⟨ts, UInt32.ofNat n⟩ tag)).map
        fun db => (db, ⟨ts, UInt32.ofNat n⟩) := by
    simp only [Database.record, ht, need, hlast, Except.bind, Except.mapError, bind, hsum,
      Int.toNat_natCast]
    rw [if_pos ⟨Int.natCast_nonneg n, by simp only [UInt32.size]; omega⟩]
    cases a.database.append (.filed ⟨ts, UInt32.ofNat n⟩ tag) <;> rfl
  rw [hrecord]
  by_cases hfree : n ≤ 4294967294
  · have hadmits : t.Admits (.filed ⟨ts, UInt32.ofNat n⟩ tag) := h.admits_next ht hnext hfree
    obtain ⟨t', happend, -⟩ := Database.append_of_admits ht hadmits
    exact .inl ⟨hfree, _, by rw [happend]; rfl⟩
  · have hn : n = 4294967295 := by omega
    subst hn
    exact .inr ⟨rfl, rfl⟩

end Orderly

end Archive

/-! ## Runs -/

/-- A write whose views are filed under the days of their timestamps. -/
def Write.FilesByTime : Write → Prop
  | .append batch => FiledByTime batch
  | .record _ _ => True

instance : (w : Write) → Decidable w.FilesByTime
  | .append batch => inferInstanceAs (Decidable (FiledByTime batch))
  | .record _ _ => isTrue trivial

/-- No view of a batch that is written has a reserved sequence number. -/
theorem Database.Stores.unreserved {db db' : Database} (h : db.Stores views) {batch : List View}
    (hwrite : db.appendAll batch = .ok db') : ∀ v ∈ batch, v.cursor.isBoundary = false := by
  obtain ⟨t, ht, -⟩ := Option.map_eq_some_iff.mp h.rows_eq
  by_cases hadmits : t.AdmitsAll batch
  · exact hadmits.unreserved
  · obtain ⟨_, v, _, -, -, -, hrefused⟩ := Database.appendAll_of_not_admitsAll ht hadmits
    rw [hrefused] at hwrite
    cases hwrite

namespace Archive

variable {a : Archive}

/-- An archive into which views are recorded, one after the other. -/
def recordAll (a : Archive) (calls : List (Int64 × String)) : Archive :=
  a.writeAll (calls.map fun (ts, tag) => .record ts tag)

/-- The cursor that is returned for a view that is recorded; none when it is refused. -/
def recorded? (a : Archive) (ts : Int64) (tag : String) : Option Cursor :=
  (a.database.record ts tag).toOption.map (·.2)

namespace Orderly

/-- An empty archive is in order. -/
theorem empty : Orderly {} := ⟨.empty, List.forall_mem_nil _, List.forall_mem_nil _⟩

/-- Every write by which views are filed under the days of their timestamps keeps order. -/
theorem write (h : a.Orderly) {w : Write} (hw : w.FilesByTime) : (a.write w).Orderly := by
  have hstores := stores_write h.stores w
  cases w with
  | append batch =>
    cases hwrite : a.database.appendAll batch with
    | error e => simpa only [Archive.write, hwrite] using h
    | ok db =>
      simp only [Archive.write, hwrite] at hstores ⊢
      exact ⟨hstores, List.forall_mem_append.mpr ⟨h.filed, hw⟩,
        List.forall_mem_append.mpr ⟨h.unreserved, h.stores.unreserved hwrite⟩⟩
  | record ts tag =>
    obtain ⟨hfree, db, hwrite⟩ | ⟨-, hwrite⟩ := h.record_cases ts tag rfl
    · simp only [Archive.write, hwrite] at hstores ⊢
      refine ⟨hstores, List.forall_mem_append.mpr ⟨h.filed, List.forall_mem_singleton.mpr rfl⟩,
        List.forall_mem_append.mpr ⟨h.unreserved, List.forall_mem_singleton.mpr ?_⟩⟩
      refine Cursor.isBoundary_eq_false_iff.mpr ?_
      show 0 < (UInt32.ofNat _).toNat ∧ (UInt32.ofNat _).toNat ≤ 4294967294
      rw [UInt32.toNat_ofNat_of_lt' (Nat.lt_of_le_of_lt hfree (by decide))]
      omega
    · simpa only [Archive.write, hwrite] using h

/-- Several such writes keep order. -/
theorem writeAll (h : a.Orderly) {writes : List Write} (hwrites : ∀ w ∈ writes, w.FilesByTime) :
    (a.writeAll writes).Orderly := by
  induction writes generalizing a with
  | nil => exact h
  | cons w rest ih =>
    obtain ⟨hw, hrest⟩ := List.forall_mem_cons.mp hwrites
    exact ih (h.write hw) hrest

/-- Recording views leaves an archive in order. -/
theorem recordAll (h : a.Orderly) (calls : List (Int64 × String)) : (a.recordAll calls).Orderly :=
  h.writeAll fun w hw => by
    obtain ⟨_, -, rfl⟩ := List.mem_map.mp hw
    trivial

/-- To record a view uses up one more number of its timestamp, if there is one. -/
theorem highestSequence_record (h : a.Orderly) (ts : Int64) (tag : String) (ts' : Int64) :
    highestSequence (a.write (.record ts tag)).written ts' =
      min (highestSequence a.written ts' + if ts = ts' then 1 else 0) 4294967294 := by
  have hle := h.highestSequence_le ts'
  obtain ⟨hfree, db, hwrite⟩ | ⟨hfull, hwrite⟩ := h.record_cases ts tag rfl
  · have hseq := UInt32.toNat_ofNat_of_lt' (Nat.lt_of_le_of_lt hfree (by decide))
    simp only [Archive.write, hwrite, highestSequence_concat, View.filed, hseq]
    split
    · rename_i hts
      subst hts
      omega
    · omega
  · simp only [Archive.write, hwrite]
    split
    · rename_i hts
      subst hts
      omega
    · omega

/-- To record several views uses up as many numbers of a timestamp as there are views of it, as far
as there are numbers. -/
theorem highestSequence_recordAll (h : a.Orderly) (calls : List (Int64 × String)) (ts : Int64) :
    highestSequence (a.recordAll calls).written ts =
      min (highestSequence a.written ts + calls.countP (·.1 = ts)) 4294967294 := by
  induction calls generalizing a with
  | nil => exact (Nat.min_eq_left (h.highestSequence_le ts)).symm
  | cons call rest ih =>
    obtain ⟨ts', tag⟩ := call
    have hrest := ih (h.write (w := .record ts' tag) trivial)
    rw [h.highestSequence_record] at hrest
    refine hrest.trans ?_
    simp only [List.countP_cons, decide_eq_true_eq]
    omega

/-- A view that is recorded is given the next number of its timestamp, if there is one. -/
theorem recorded?_eq (h : a.Orderly) (ts : Int64) (tag : String) :
    a.recorded? ts tag = Cursor.numbered? ts (highestSequence a.written ts + 1) := by
  unfold recorded? Cursor.numbered?
  obtain ⟨hfree, db, hwrite⟩ | ⟨hfull, hwrite⟩ := h.record_cases ts tag rfl
  · rw [hwrite, if_pos hfree]
    rfl
  · rw [hwrite, if_neg (by omega)]
    rfl

end Orderly

/-- Whatever was written to the table, each view under the day of its timestamp, no two of its views
share a cursor. A view that is recorded is stored with its tag, past all views of its millisecond,
unless the last cursor of the millisecond is in use; then it is refused, and nothing changes. Of
views recorded with no batch in between, those of one millisecond take the numbers after the
greatest one in use, one after the other. -/
theorem record_takes_next (writes : List Write) (hfiled : ∀ w ∈ writes, w.FilesByTime) :
    let a := writeAll {} writes
    a.database.Stores a.written ∧ (a.written.map View.cursor).Nodup ∧
      (∀ ts tag, Cursor.top ts ∉ a.written.map View.cursor →
        ∃ db cursor, a.database.record ts tag = .ok (db, cursor) ∧ cursor.ts = ts ∧
          (∀ v ∈ a.written, v.cursor.ts = ts → v.cursor < cursor) ∧
          db.Stores (a.written ++ [.filed cursor tag]) ∧
          a.write (.record ts tag) =
            { database := db, written := a.written ++ [.filed cursor tag] }) ∧
      (∀ ts tag, Cursor.top ts ∈ a.written.map View.cursor →
        a.database.record ts tag = .error (.reservedSequence (.ceiling ts)) ∧
          a.write (.record ts tag) = a) ∧
      ∀ calls ts tag, (a.recordAll calls).recorded? ts tag =
        Cursor.numbered? ts (highestSequence a.written ts + calls.countP (·.1 = ts) + 1) := by
  intro a
  have h : a.Orderly := Orderly.empty.writeAll hfiled
  refine ⟨h.stores, h.nodup_cursors, fun ts tag hfree => ?_, fun ts tag hfull => ?_,
    fun calls ts tag => ?_⟩
  · rw [h.top_mem_iff] at hfree
    have hle := h.highestSequence_le ts
    obtain ⟨hnext, db, hwrite⟩ | ⟨hfull, -⟩ := h.record_cases ts tag rfl
    · refine ⟨db, _, hwrite, rfl, fun v hv hts => ?_, h.stores.record hwrite, ?_⟩
      · have hlast := seq_le_highestSequence hv hts
        refine Cursor.lt_iff.mpr (.inr ⟨hts, UInt32.lt_iff_toNat_lt.mpr ?_⟩)
        rw [UInt32.toNat_ofNat_of_lt' (Nat.lt_of_le_of_lt hnext (by decide))]
        omega
      · simp only [Archive.write, hwrite]
    · omega
  · rw [h.top_mem_iff] at hfull
    obtain ⟨hnext, -⟩ | ⟨-, hwrite⟩ := h.record_cases ts tag rfl
    · omega
    · exact ⟨hwrite, by simp only [Archive.write, hwrite]⟩
  · rw [(h.recordAll calls).recorded?_eq, h.highestSequence_recordAll]
    unfold Cursor.numbered?
    split
    · rw [if_pos (by omega)]
      congr 3
      omega
    · rw [if_neg (by omega)]

/-- Views on no date, of which the one at the last millisecond leaves one number free there. -/
def offTheCalendar : List Write :=
  [.append [.filed ⟨Int64.maxValue, 4294967292⟩ "a", .filed ⟨Int64.minValue, 7⟩ "b"],
    .record Int64.maxValue "c"]

/-- All these views are filed under one day. The last millisecond takes one more view, and the first
one goes on from its own number. -/
theorem record_takes_next_offTheCalendar :
    let a := writeAll {} offTheCalendar
    let calls := [(Int64.maxValue, "d"), (Int64.minValue, "e"), (Int64.maxValue, "f")]
    (∀ w ∈ offTheCalendar, w.FilesByTime) ∧ a.recorded? .maxValue "d" = some (.top .maxValue) ∧
      (a.recordAll calls).recorded? .maxValue "g" = none ∧
      (a.recordAll calls).recorded? .minValue "h" = some ⟨.minValue, 9⟩ ∧
      a.database.Stores a.written ∧ (a.written.map View.cursor).Nodup ∧
      (∀ ts tag, Cursor.top ts ∉ a.written.map View.cursor →
        ∃ db cursor, a.database.record ts tag = .ok (db, cursor) ∧ cursor.ts = ts ∧
          (∀ v ∈ a.written, v.cursor.ts = ts → v.cursor < cursor) ∧
          db.Stores (a.written ++ [.filed cursor tag]) ∧
          a.write (.record ts tag) =
            { database := db, written := a.written ++ [.filed cursor tag] }) ∧
      (∀ ts tag, Cursor.top ts ∈ a.written.map View.cursor →
        a.database.record ts tag = .error (.reservedSequence (.ceiling ts)) ∧
          a.write (.record ts tag) = a) ∧
      ∀ calls ts tag, (a.recordAll calls).recorded? ts tag =
        Cursor.numbered? ts (highestSequence a.written ts + calls.countP (·.1 = ts) + 1) := by
  intro a calls
  have hfiled : ∀ w ∈ offTheCalendar, w.FilesByTime := by decide +kernel
  exact ⟨hfiled, by decide +kernel, by decide +kernel, by decide +kernel,
    record_takes_next offTheCalendar hfiled⟩

end Archive

end Store

end Pacing
