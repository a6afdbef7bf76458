import Pacing.Proofs.DoubleSums
import Pacing.Proofs.RepeatedCycles

/-!
# The list of boosts and the lookup of one

The list of active boosts and the lookup of a single boost sum the bids of a location differently:
the list lets a boost that is not safe add zero to the safe pool, the lookup leaves it out. Bids are
numbers without a minus sign, so that the sums are the same all the same, and a boost is listed with
the very shares that it is looked up with.
-/

namespace Pacing.Store

open Double

/-- A list of computations that can fail gives its results if all of them do. -/
theorem exists_mapM_eq_ok {ε α β γ : Type} {f : α → Except ε β} {key : α → γ} {key' : β → γ}
    {P : β → Prop} {as : List α} (h : ∀ a ∈ as, ∃ b, f a = .ok b ∧ key' b = key a ∧ P b) :
    ∃ bs, as.mapM f = .ok bs ∧ bs.map key' = as.map key ∧ ∀ b ∈ bs, P b := by
  induction as with
  | nil => exact ⟨[], rfl, rfl, fun b hb => nomatch hb⟩
  | cons a rest ih =>
    rw [List.forall_mem_cons] at h
    obtain ⟨⟨b, hb, hkey, hP⟩, hrest⟩ := h
    obtain ⟨bs, hbs, hkeys, hforall⟩ := ih hrest
    refine ⟨b :: bs, ?_, ?_, List.forall_mem_cons.mpr ⟨hP, hforall⟩⟩
    · rw [List.mapM_cons, hb, hbs]
      rfl
    · rw [List.map_cons, List.map_cons, hkey, hkeys]

/-! ## Cells that hold numbers -/

namespace Cell

/-- Whether a cell holds a number. -/
def IsNumber (cell : Cell) : Prop := cell.kind = .integer ∨ cell.kind = .real

/-- A cell with a number is read as a double. -/
theorem IsNumber.double_eq {cell : Cell} (h : cell.IsNumber) (c : Column) :
    c.double cell = .ok cell.toFloat := by
  cases cell with
  | integer n => rfl
  | real x => rfl
  | _ => rcases h with h | h <;> cases h

end Cell

/-- The double `-0` counts no grains. -/
theorem Cell.grains_negZero : grains (-0) = 0 := by decide

/-- A double without a minus sign counts no negative number of grains, and neither does `-0`. -/
theorem Cell.grains_nonneg {x : Float} (h : IsUnsigned x ∨ x = -0) : 0 ≤ grains x := by
  rcases h with hx | rfl
  · unfold grains
    dsimp only
    rw [if_pos hx.toBits_lt]
    exact Int.natCast_nonneg _
  · exact Int.le_of_eq grains_negZero.symm

/-- A double that is a whole number within the words of the database is stored by way of an
integer. -/
theorem Affinity.store_real (x : Float) :
    Affinity.real.store (.real x) =
      .real (if (Cell.real x).part = 0 ∧ Int64.minValue.toInt < (Cell.real x).whole ∧
        (Cell.real x).whole < Int64.maxValue.toInt then .ofInt (Cell.real x).whole else x) := by
  unfold Affinity.store Cell.settle Cell.settleReal
  dsimp only
  split_ifs <;> rfl

/-- A double that is a number is bound as a real. -/
theorem Cell.ofFloat_of_number {x : Float} (h : x.isNaN = false) : ofFloat x = .real x :=
  if_neg (by rw [h]; decide)

/-- A bid that is a number and not below zero is stored as a double without a minus sign; the
negative zero loses its sign. -/
theorem Affinity.store_bid {bid : Float} (hnumber : bid.isNaN = false) (hneg : ¬bid < 0) :
    ∃ x, Affinity.real.store (.ofFloat bid) = .real x ∧ IsUnsigned x := by
  have hsign := isUnsigned_or_eq_negZero hnumber hneg
  rw [Cell.ofFloat_of_number hnumber, store_real]
  refine ⟨_, rfl, ?_⟩
  split_ifs with hwhole
  · refine isUnsigned_ofInt ?_
    exact Int.ediv_nonneg (Cell.grains_nonneg hsign) (Int.natCast_nonneg _)
  · rcases hsign with hx | rfl
    · exact hx
    · exact absurd (by decide +kernel) hwhole

/-- A bid is stored as null exactly if it is NaN. -/
theorem Affinity.store_bid_eq_null_iff {bid : Float} :
    Affinity.real.store (.ofFloat bid) = .null ↔ bid.isNaN = true := by
  cases h : bid.isNaN with
  | true =>
    have hcell : Cell.ofFloat bid = .null := if_pos h
    rw [hcell]
    exact iff_of_true rfl rfl
  | false =>
    rw [Cell.ofFloat_of_number h, store_real]
    simp

/-! ## Entries -/

/-- A table that is needed is found if it is there. -/
theorem need_eq_ok_iff {α : Type} {name : Table} {table : Option α} {t : α} :
    need name table = .ok t ↔ table = some t := by
  cases table <;> simp [need]

/-- What a boost is put into the table with. -/
structure BoostEntry where
  /-- The name of the boost. -/
  id : String
  /-- Where it is shown. -/
  location : Location
  /-- Whether it is safe for all. -/
  safeForAll : Bool
  /-- What is paid for it each day. -/
  bid : Float
  /-- Whether it is shown now. -/
  active : Bool
deriving DecidableEq, Repr

namespace BoostEntry

/-- Puts the boost into a database. -/
def putIn (db : Database) (e : BoostEntry) : Except RepositoryError Database :=
  db.upsert e.id e.location e.safeForAll e.bid e.active

/-- The row of the boost. -/
def row (e : BoostEntry) : BoostRow :=
  { guid := .text e.id
    location := .text e.location.name
    safeForAll := .ofBool e.safeForAll
    dailyBid := Affinity.real.store (.ofFloat e.bid)
    active := .ofBool e.active }

/-- Whether the bid is a number and not below zero. -/
def IsAccepted (e : BoostEntry) : Prop := e.bid.isNaN = false ∧ ¬e.bid < 0

instance (e : BoostEntry) : Decidable e.IsAccepted := by unfold IsAccepted; infer_instance

/-- What a boost was put in with last. -/
def lastOf (entries : List BoostEntry) (id : String) : Option BoostEntry :=
  entries.reverse.find? (·.id = id)

/-- The last entry of a boost is the one that was just added, or else the earlier one. -/
theorem lastOf_concat (entries : List BoostEntry) (e : BoostEntry) (id : String) :
    lastOf (entries ++ [e]) id = if e.id = id then some e else lastOf entries id := by
  by_cases hid : e.id = id <;> simp [lastOf, hid]

/-- The last entry of a boost has its identifier. -/
theorem id_of_lastOf {entries : List BoostEntry} {id : String} {e : BoostEntry}
    (h : lastOf entries id = some e) : e.id = id := by
  simpa using List.find?_some h

/-- An accepted bid is stored as a real without a minus sign. -/
theorem IsAccepted.exists_bid {e : BoostEntry} (h : e.IsAccepted) :
    ∃ x, e.row.dailyBid = .real x ∧ IsUnsigned x := Affinity.store_bid h.1 h.2

/-- Of the columns of an entry only the bid can be missing, if it is NaN. -/
theorem missing?_row_eq_none {e : BoostEntry} :
    missing? e.row.named = none ↔ e.bid.isNaN = false := by
  have hbid : _ ↔ ¬e.bid.isNaN = true := Affinity.store_bid_eq_null_iff.not
  rw [Bool.not_eq_true] at hbid
  simpa [missing?, BoostRow.named, row, Cell.ofBool] using hbid

/-- Writing an entry succeeds exactly if it is accepted, and puts its row into the table. -/
theorem set_eq_ok_iff {t t' : BoostTable} {e : BoostEntry} :
    t.set e.id e.location e.safeForAll e.bid e.active = .ok t' ↔
      e.IsAccepted ∧ t' = t.upsert e.row := by
  rw [IsAccepted, ← missing?_row_eq_none]
  unfold BoostTable.set
  dsimp only
  split
  · rename_i error hmissing
    have hmissing : missing? e.row.named = some error := hmissing
    simp [hmissing]
  · rename_i hmissing
    have hmissing : missing? e.row.named = none := hmissing
    by_cases hneg : e.bid < 0
    · simp [hneg]
    · rw [if_neg hneg]
      exact ⟨fun h => ⟨⟨hmissing, hneg⟩, (Except.ok.inj h).symm⟩, fun h => congrArg _ h.2.symm⟩

/-- A boost is put in if its bid is accepted, and otherwise not. -/
theorem putIn_eq_ok_iff {db db' : Database} {e : BoostEntry} :
    putIn db e = .ok db' ↔
      ∃ t, db.boosts = some t ∧ e.IsAccepted ∧
        db' = { db with boosts := some (t.upsert e.row) } := by
  have hput : putIn db e = ((need .boosts db.boosts >>= fun t =>
      t.set e.id e.location e.safeForAll e.bid e.active).mapError RepositoryError.store >>= fun t =>
        .ok { db with boosts := some t }) := rfl
  simp only [hput, bind_eq_ok_iff, mapError_eq_ok_iff, need_eq_ok_iff, set_eq_ok_iff]
  constructor
  · rintro ⟨_, ⟨t, ht, haccepted, rfl⟩, hdb⟩
    exact ⟨t, ht, haccepted, (Except.ok.inj hdb).symm⟩
  · rintro ⟨t, ht, haccepted, rfl⟩
    exact ⟨_, ⟨t, ht, haccepted, rfl⟩, rfl⟩

/-- Boosts with accepted bids can always be put in. -/
theorem exists_foldlM_putIn {start : Database} {t : BoostTable} {entries : List BoostEntry}
    (hstart : start.boosts = some t) (h : ∀ e ∈ entries, e.IsAccepted) :
    ∃ db, entries.foldlM putIn start = .ok db := by
  induction entries generalizing start t with
  | nil => exact ⟨start, rfl⟩
  | cons e rest ih =>
    rw [List.forall_mem_cons] at h
    have hput := putIn_eq_ok_iff.mpr ⟨t, hstart, h.1, rfl⟩
    have hboosts : ({ start with boosts := some (t.upsert e.row) } : Database).boosts =
      some (t.upsert e.row) := rfl
    obtain ⟨db, hdb⟩ := ih hboosts h.2
    exact ⟨db, foldlM_cons_eq_ok_iff.mpr ⟨_, hput, hdb⟩⟩

end BoostEntry

/-! ## The table after some entries -/

/-- The rows after an upsert are the new row and rows that were there. -/
theorem NamedRows.mem_upsert {α : Type} {name : α → Cell} {t : NamedRows α name} {r s : α}
    (h : s ∈ (t.upsert r).rows) : s = r ∨ s ∈ t.rows := by
  unfold upsert at h
  split at h
  · obtain ⟨s', hs', rfl⟩ := List.mem_map.mp h
    split
    · exact .inl rfl
    · exact .inr hs'
  · rcases List.mem_append.mp h with hs | hs
    · exact .inr hs
    · exact .inl (List.mem_singleton.mp hs)

/-- Rows are sorted by name. -/
theorem NamedRows.pairwise_sorted {α : Type} {name : α → Cell} (t : NamedRows α name) :
    t.sorted.Pairwise fun r s => (compare (name r) (name s)).isLE = true := by
  refine List.pairwise_mergeSort (fun r s u => Std.TransCmp.isLE_trans) (fun r s => ?_) _
  rw [Std.OrientedOrd.eq_swap (a := name s)]
  cases compare (name r) (name s) <;> rfl

namespace BoostTable

open BoostEntry

/-- A table that holds each boost as it was put in last. -/
structure Holds (t : BoostTable) (entries : List BoostEntry) : Prop where
  find?_eq : ∀ id, t.find? (.text id) = (lastOf entries id).map row
  /-- Every row is that of an accepted entry. -/
  exists_entry : ∀ r ∈ t.rows, ∃ e : BoostEntry, e.IsAccepted ∧ e.row = r

/-- A new table holds no entries. -/
theorem holds_nil : Holds {} [] := ⟨fun _ => rfl, fun _ h => nomatch h⟩

/-- Putting the row of an accepted entry into the table adds the entry to what it holds. -/
theorem Holds.upsert {t : BoostTable} {entries : List BoostEntry} {e : BoostEntry}
    (h : t.Holds entries) (he : e.IsAccepted) :
    Holds (t.upsert e.row) (entries ++ [e]) := by
  refine ⟨fun id => ?_, fun r hr => ?_⟩
  · rw [NamedRows.find?_upsert, lastOf_concat, h.find?_eq]
    by_cases hid : e.id = id <;> simp [row, hid]
  · rcases NamedRows.mem_upsert hr with rfl | hr
    · exact ⟨e, he, rfl⟩
    · exact h.exists_entry r hr

/-- The table of a database holds what was put into it. -/
theorem holds_of_foldlM {start db : Database} {entries : List BoostEntry}
    (hstart : start.boosts = some {}) (hput : entries.foldlM putIn start = .ok db) :
    ∃ t, db.boosts = some t ∧ t.Holds entries := by
  induction entries using List.reverseRecOn generalizing db with
  | nil =>
    cases hput
    exact ⟨{}, hstart, holds_nil⟩
  | append_singleton before e ih =>
    rw [List.foldlM_append] at hput
    obtain ⟨db', hbefore, hlast⟩ := bind_eq_ok_iff.mp hput
    obtain ⟨t, ht, hholds⟩ := ih hbefore
    obtain ⟨db'', he, hnil⟩ := foldlM_cons_eq_ok_iff.mp hlast
    cases hnil
    obtain ⟨t', ht', haccepted, rfl⟩ := putIn_eq_ok_iff.mp he
    obtain rfl : t' = t := Option.some.inj (ht'.symm.trans ht)
    exact ⟨_, rfl, hholds.upsert haccepted⟩

end BoostTable

/-! ## Pools -/

/-- A sum of cells that are not all integers and have no minus signs is the compensated one. -/
theorem Cell.sum_eq_real {cells : List Cell} (hreal : ∃ cell ∈ cells, cell.kind ≠ .integer)
    (hunsigned : ∀ cell ∈ cells, IsUnsigned cell.toFloat) :
    sum cells = .real (compensatedSum (cells.map toFloat)) := by
  obtain ⟨cell, hcell, hkind⟩ := hreal
  unfold sum
  rw [if_neg (List.ne_nil_of_mem hcell), if_neg fun h => hkind (h cell hcell)]
  refine ofFloat_of_number (isNaN_compensatedSum fun x hx => ?_)
  obtain ⟨cell', hcell', rfl⟩ := List.mem_map.mp hx
  exact hunsigned cell' hcell'

/-- The sum of integer zeros is an integer zero. -/
theorem Cell.sum_eq_zero {cells : List Cell} (hne : cells ≠ [])
    (hzero : ∀ cell ∈ cells, cell = .integer 0) : sum cells = .integer 0 := by
  have hcells := List.eq_replicate_of_mem hzero
  unfold sum
  rw [if_neg hne, if_pos fun cell hcell => by rw [hzero cell hcell]; rfl, hcells]
  simp [whole]

namespace BoostRow

/-- Whether the bid is a double without a minus sign. -/
def BidsUnsigned (r : BoostRow) : Prop := ∃ x, r.dailyBid = .real x ∧ IsUnsigned x

/-- What the bids of some boosts come to. -/
def bidTotal (rows : List BoostRow) : Cell :=
  if rows = [] then .integer 0
  else .real (compensatedSum (rows.map (·.dailyBid.toFloat)))

variable {rows : List BoostRow}

/-- The total of the bids is a number, also where there are none. -/
theorem isNumber_bidTotal (rows : List BoostRow) : (bidTotal rows).IsNumber := by
  unfold bidTotal
  split
  · exact .inl rfl
  · exact .inr rfl

/-- A bid without a minus sign is read as a double without one. -/
theorem BidsUnsigned.isUnsigned {r : BoostRow} (h : r.BidsUnsigned) :
    IsUnsigned r.dailyBid.toFloat := by
  obtain ⟨x, hx, hunsigned⟩ := h
  rw [hx]
  exact hunsigned

/-- A bid without a minus sign is not stored as an integer. -/
theorem BidsUnsigned.kind_ne {r : BoostRow} (h : r.BidsUnsigned) :
    r.dailyBid.kind ≠ .integer := by
  obtain ⟨x, hx, -⟩ := h
  rw [hx]
  exact CellKind.noConfusion

/-- The sum over the boosts that share a pool. -/
theorem sum_dailyBid (h : ∀ r ∈ rows, r.BidsUnsigned) (hne : rows ≠ []) :
    Cell.sum (rows.map (·.dailyBid)) = bidTotal rows := by
  obtain ⟨r, hr⟩ := List.exists_mem_of_ne_nil rows hne
  rw [bidTotal, if_neg hne, Cell.sum_eq_real ⟨_, List.mem_map_of_mem hr, (h r hr).kind_ne⟩,
    List.map_map]
  · rfl
  · intro cell hcell
    obtain ⟨r', hr', rfl⟩ := List.mem_map.mp hcell
    exact (h r' hr').isUnsigned

/-- The sum over all boosts, of which some add zero, is the sum over the others. -/
theorem sum_dailyBid_or_zero (h : ∀ r ∈ rows, r.BidsUnsigned) (hne : rows ≠ []) :
    Cell.sum (rows.map fun r => if r.IsSafe then r.dailyBid else .integer 0) =
      bidTotal (rows.filter (·.IsSafe)) := by
  unfold bidTotal
  -- Whole zeros alone have a whole sum, and beside a bid they are doubles like it.
  split
  · rename_i hnone
    refine Cell.sum_eq_zero (by simpa using hne) fun cell hcell => ?_
    obtain ⟨r, hr, rfl⟩ := List.mem_map.mp hcell
    refine if_neg fun hsafe => ?_
    have hmem : r ∈ rows.filter (·.IsSafe) := List.mem_filter.mpr ⟨hr, decide_eq_true hsafe⟩
    rw [hnone] at hmem
    cases hmem
  · rename_i hsome
    obtain ⟨r, hr⟩ := List.exists_mem_of_ne_nil _ hsome
    obtain ⟨hr, hsafe⟩ := List.mem_filter.mp hr
    have hsafe : r.IsSafe := of_decide_eq_true hsafe
    have hterm (r : BoostRow) :
        (if r.IsSafe then r.dailyBid else .integer 0).toFloat =
          if r.IsSafe then r.dailyBid.toFloat else 0 := by
      split <;> rfl
    rw [Cell.sum_eq_real, List.map_map, ← compensatedSum_filter _ fun r hr => (h r hr).isUnsigned]
    · exact congrArg (fun xs => Cell.real (compensatedSum xs)) (List.map_congr_left fun r _ => hterm r)
    · refine ⟨_, List.mem_map_of_mem hr, ?_⟩
      rw [if_pos hsafe]
      exact (h r hr).kind_ne
    · intro cell hcell
      obtain ⟨r', hr', rfl⟩ := List.mem_map.mp hcell
      rw [hterm]
      split
      · exact (h r' hr').isUnsigned
      · exact isUnsigned_zero

end BoostRow

namespace BoostTable

open BoostRow

variable {t : BoostTable}

/-- The pools of a location: what the bids of the active boosts there come to, and what those of
the safe ones come to. -/
def poolsAt (t : BoostTable) (location : Cell) : Pools :=
  ⟨bidTotal (t.activeAt location), bidTotal ((t.activeAt location).filter (·.IsSafe))⟩

/-- Where a boost is active, the listing has the pools of that location. -/
theorem listedPools_eq (h : ∀ r ∈ t.rows, r.BidsUnsigned) {location : Cell}
    (hne : t.activeAt location ≠ []) : t.listedPools location = t.poolsAt location := by
  have hrows : ∀ r ∈ t.activeAt location, r.BidsUnsigned :=
    fun r hr => h r (List.mem_of_mem_filter hr)
  simp only [listedPools, poolsAt, sum_dailyBid hrows hne, sum_dailyBid_or_zero hrows hne]

/-- The look-up has the pools of the location. -/
theorem lookupPools_eq (h : ∀ r ∈ t.rows, r.BidsUnsigned) (location : Cell) :
    t.lookupPools location = t.poolsAt location := by
  have horZero {rows : List BoostRow} (hrows : ∀ r ∈ rows, r.BidsUnsigned) :
      (if Cell.sum (rows.map (·.dailyBid)) = .null then .integer 0
        else Cell.sum (rows.map (·.dailyBid))) = bidTotal rows := by
    by_cases hne : rows = []
    · subst hne
      rfl
    · rw [sum_dailyBid hrows hne, if_neg]
      intro hnull
      have := isNumber_bidTotal rows
      rw [hnull] at this
      rcases this with h | h <;> cases h
  have hrows : ∀ r ∈ t.activeAt location, r.BidsUnsigned :=
    fun r hr => h r (List.mem_of_mem_filter hr)
  simp only [lookupPools, poolsAt, Pools.orZero, horZero hrows,
    horZero fun r hr => hrows r (List.mem_of_mem_filter hr)]

end BoostTable

/-! ## The boosts of a table -/

namespace BoostEntry

/-- The boost with the shares that the pools of its location give it. -/
def boost (e : BoostEntry) (pools : Pools) : Boost :=
  let share (pool : Cell) : Float :=
    if e.active ∧ pool.toFloat > 0 then e.row.dailyBid.toFloat / pool.toFloat else 0
  { id := e.id
    location := e.location
    safeForAll := e.safeForAll
    shares := ⟨some (share pools.general), if e.safeForAll then some (share pools.safe) else none⟩ }

/-- A row is read as the boost of its entry, with given pools. -/
theorem boost_row {e : BoostEntry} (h : e.row.BidsUnsigned) {pools : Pools}
    (hgeneral : pools.general.IsNumber) (hsafe : pools.safe.IsNumber) :
    e.row.boost e.row.active pools = .ok (e.boost pools) := by
  have htruth (b : Bool) (c : Column) : c.truth (.ofBool b) = .ok b := by cases b <;> rfl
  have htext (s : String) (c : Column) : c.text (.text s) = .ok s := rfl
  obtain ⟨x, hx, -⟩ := h
  have hbid (c : Column) : c.double e.row.dailyBid = .ok e.row.dailyBid.toFloat := by
    rw [hx]
    rfl
  have hguid : e.row.guid = .text e.id := rfl
  have hlocation : e.row.location = .text e.location.name := rfl
  have hsafeForAll : e.row.safeForAll = .ofBool e.safeForAll := rfl
  have hactive : e.row.active = .ofBool e.active := rfl
  simp only [BoostRow.boost, hguid, hlocation, hsafeForAll, hactive, htext, htruth, hbid,
    hgeneral.double_eq, hsafe.double_eq, Except.mapError, bind, Except.bind,
    Location.ofName?_name]
  rfl

end BoostEntry

namespace BoostTable

open BoostEntry

variable {t : BoostTable} {entries : List BoostEntry}

/-- The bids of a table that holds accepted entries have no minus signs. -/
theorem Holds.bidsUnsigned (h : t.Holds entries) : ∀ r ∈ t.rows, r.BidsUnsigned := by
  intro r hr
  obtain ⟨e, he, rfl⟩ := h.exists_entry r hr
  exact he.exists_bid

/-- A row is found by its name. -/
theorem find?_of_mem {r : BoostRow} (hr : r ∈ t.rows) (hname : r.guid ≠ .null) :
    t.find? r.guid = some r := by
  have hfound : t.find? r.guid ≠ none := by
    intro hnone
    have := List.find?_eq_none.mp hnone r hr
    simp at this
  obtain ⟨s, hs⟩ := Option.ne_none_iff_exists'.mp hfound
  have hsame : s.guid = r.guid := by simpa using List.find?_some hs
  rw [hs, t.eq_of_name_eq (List.mem_of_find?_eq_some hs) hr hsame hname]

/-- A boost whose row is found is looked up as its last entry says, with the pools of its
location. -/
theorem Holds.lookup_of_find? (h : t.Holds entries) {id : String} {e : BoostEntry}
    (hfind : t.find? (.text id) = some e.row) :
    t.lookup id = .ok (some (e.boost (t.poolsAt e.row.location))) := by
  have hbid := h.bidsUnsigned e.row (List.mem_of_find?_eq_some hfind)
  unfold BoostTable.lookup
  rw [hfind]
  change (e.row.boost e.row.active (t.lookupPools e.row.location)).map some = _
  rw [lookupPools_eq h.bidsUnsigned,
    boost_row hbid (BoostRow.isNumber_bidTotal _) (BoostRow.isNumber_bidTotal _)]
  rfl

/-- A boost is looked up as it was put in last, with the pools of its location. -/
theorem Holds.lookup_eq (h : t.Holds entries) (id : String) :
    t.lookup id = .ok ((lastOf entries id).map fun e => e.boost (t.poolsAt e.row.location)) := by
  have hfind := h.find?_eq id
  cases hlast : lastOf entries id with
  | none =>
    rw [hlast] at hfind
    unfold BoostTable.lookup
    rw [hfind]
    rfl
  | some e =>
    rw [hlast] at hfind
    exact h.lookup_of_find? hfind

/-- Each active boost is listed as it is looked up. -/
theorem Holds.listed_eq (h : t.Holds entries) {r : BoostRow} (hr : r ∈ t.rows)
    (hactive : r.IsActive) :
    ∃ b : Boost, r.boost (.integer 1) (t.listedPools r.location) = .ok b ∧
      .text b.id = r.guid ∧ t.lookup b.id = .ok (some b) := by
  obtain ⟨e, he, rfl⟩ := h.exists_entry r hr
  have hne : t.activeAt e.row.location ≠ [] := by
    refine List.ne_nil_of_mem (a := e.row) (List.mem_filter.mpr ⟨hr, ?_⟩)
    exact decide_eq_true ⟨hactive, rfl⟩
  have hactive : e.row.active = .integer 1 := hactive
  have hfind : t.find? (.text e.id) = some e.row := find?_of_mem hr (by simp [row])
  refine ⟨e.boost (t.poolsAt e.row.location), ?_, rfl, ?_⟩
  · rw [listedPools_eq h.bidsUnsigned hne, ← hactive]
    exact boost_row he.exists_bid (BoostRow.isNumber_bidTotal _) (BoostRow.isNumber_bidTotal _)
  · exact h.lookup_of_find? hfind

/-- No name comes twice in the order of the rows. -/
theorem Holds.pairwise_sorted (h : t.Holds entries) :
    t.sorted.Pairwise fun r s => compare r.guid s.guid = .lt := by
  have hne : t.rows.Pairwise fun r s => r.guid ≠ s.guid := by
    refine t.distinct.imp_of_mem fun {r s} _ hs hdistinct hsame => ?_
    obtain ⟨e, -, rfl⟩ := h.exists_entry s hs
    cases hdistinct hsame
  have hperm : t.rows.Perm t.sorted := (List.mergeSort_perm _ _).symm
  refine (t.pairwise_sorted.and (hperm.pairwise hne Ne.symm)).imp_of_mem fun {r s} hr hs hle => ?_
  obtain ⟨e, -, rfl⟩ := h.exists_entry r (hperm.mem_iff.mpr hr)
  obtain ⟨e', -, rfl⟩ := h.exists_entry s (hperm.mem_iff.mpr hs)
  obtain ⟨hle, hne⟩ := hle
  change (compare (Cell.text e.id) (.text e'.id)).isLE = true at hle
  change Cell.text e.id ≠ .text e'.id at hne
  change compare (Cell.text e.id) (.text e'.id) = .lt
  rw [Cell.compare_text] at hle ⊢
  cases hcompare : compare e.id e'.id with
  | lt => rfl
  | eq => exact absurd (congrArg Cell.text (Std.LawfulEqCmp.eq_of_compare hcompare)) hne
  | gt =>
    rw [hcompare] at hle
    cases hle

/-- A row is active exactly if its entry is. -/
theorem isActive_row {e : BoostEntry} : e.row.IsActive ↔ e.active = true := by
  unfold BoostRow.IsActive
  rw [show e.row.active = .ofBool e.active from rfl]
  cases e.active <;> decide

/-- The boosts that are listed are those that were put in as active last. -/
theorem Holds.mem_names_iff (h : t.Holds entries) (id : String) :
    Cell.text id ∈ (t.sorted.filter (·.IsActive)).map (·.guid) ↔
      ∃ e, lastOf entries id = some e ∧ e.active = true := by
  have hperm : t.sorted.Perm t.rows := List.mergeSort_perm _ _
  have hfind := h.find?_eq id
  constructor
  · intro hmem
    obtain ⟨r, hr, hname⟩ := List.mem_map.mp hmem
    obtain ⟨hr, hactive⟩ := List.mem_filter.mp hr
    have hfound := find?_of_mem (hperm.mem_iff.mp hr) (by rw [hname]; simp)
    rw [hname, hfind] at hfound
    obtain ⟨e, he, rfl⟩ := Option.map_eq_some_iff.mp hfound
    exact ⟨e, he, isActive_row.mp (of_decide_eq_true hactive)⟩
  · rintro ⟨e, he, hactive⟩
    rw [he, Option.map_some] at hfind
    have hname : e.row.guid = .text id := congrArg Cell.text (id_of_lastOf he)
    refine List.mem_map.mpr ⟨e.row, List.mem_filter.mpr ⟨?_, ?_⟩, hname⟩
    · exact hperm.mem_iff.mpr (List.mem_of_find?_eq_some hfind)
    · exact decide_eq_true (isActive_row.mpr hactive)

/-- The list of active boosts has each of them as it is looked up, in the order of the names. -/
theorem Holds.active_eq (h : t.Holds entries) :
    ∃ boosts, t.active = .ok boosts ∧
      boosts.map (Cell.text ·.id) = (t.sorted.filter (·.IsActive)).map (·.guid) ∧
      ∀ b ∈ boosts, t.lookup b.id = .ok (some b) := by
  refine exists_mapM_eq_ok fun r hr => ?_
  obtain ⟨hr, hactive⟩ := List.mem_filter.mp hr
  exact h.listed_eq ((List.mergeSort_perm _ _).mem_iff.mp hr) (of_decide_eq_true hactive)

end BoostTable

/-- How a boost that is looked up goes with what was put in. -/
structure BoostEntry.Gives (e : BoostEntry) (b : Boost) : Prop where
  id : b.id = e.id
  location : b.location = e.location
  safeForAll : b.safeForAll = e.safeForAll
  /-- It declares a share of each audience that it competes for, and of no other. -/
  declares : ∀ a, (b.shares.get? a).isSome = true ↔ b.Competes a
  /-- It has no share unless it is active. -/
  inactive : e.active = false → ∀ a x, b.shares.get? a = some x → x = 0

/-- The boost of an entry has the values that the entry gives. -/
theorem BoostEntry.gives_boost (e : BoostEntry) (pools : Pools) : e.Gives (e.boost pools) := by
  refine ⟨rfl, rfl, rfl, fun a => ?_, fun hactive a x hx => ?_⟩
  · cases a with
    | general => exact iff_of_true rfl (Boost.competes_general _)
    | safe =>
      rw [Boost.competes_safe_iff]
      cases hsafe : e.safeForAll <;> simp [boost, PerAudience.get?, hsafe]
  · cases a with
    | general => simpa [boost, PerAudience.get?, hactive] using hx.symm
    | safe =>
      cases hsafe : e.safeForAll with
      | false => simp [boost, PerAudience.get?, hsafe] at hx
      | true => simpa [boost, PerAudience.get?, hactive, hsafe] using hx.symm

namespace Database

open BoostEntry

/-- Whatever boosts are put into an empty table, the active ones are listed, once each and in the
order of their names, and each of them with the same shares with which it is looked up. Every boost
is looked up as it was put in last; without any share if it is not active. -/
theorem active_listed_as_looked_up {start db : Database} {entries : List BoostEntry}
    (hstart : start.boosts = some {}) (hput : entries.foldlM putIn start = .ok db) :
    ∃ boosts, db.active = .ok boosts ∧ boosts.Pairwise (·.id < ·.id) ∧
      (∀ b ∈ boosts, db.lookup b.id = .ok (some b)) ∧
      ∀ id, match lastOf entries id with
        | none => db.lookup id = .ok none
        | some e => ∃ b, db.lookup id = .ok (some b) ∧ e.Gives b ∧
            (b ∈ boosts ↔ e.active = true) := by
  obtain ⟨t, ht, hholds⟩ := BoostTable.holds_of_foldlM hstart hput
  obtain ⟨boosts, hactive, hnames, hlisted⟩ := hholds.active_eq
  have hdbActive : db.active = t.active := by
    rw [Database.active, ht]
    rfl
  have hdbLookup (id : String) : db.lookup id = t.lookup id := by
    rw [Database.lookup, ht]
    rfl
  simp only [hdbActive, hdbLookup]
  refine ⟨boosts, hactive, ?_, hlisted, fun id => ?_⟩
  · have hordered : (boosts.map (Cell.text ·.id)).Pairwise fun c c' => compare c c' = .lt := by
      rw [hnames]
      exact List.pairwise_map.mpr (hholds.pairwise_sorted.filter _)
    refine (List.pairwise_map.mp hordered).imp fun {b b'} hlt => ?_
    rw [Cell.compare_text] at hlt
    exact compare_lt_iff_lt.mp hlt
  · have hlookup := hholds.lookup_eq id
    have hmem := hholds.mem_names_iff id
    cases hlast : lastOf entries id with
    | none =>
      rw [hlast] at hlookup
      exact hlookup
    | some e =>
      rw [hlast, Option.map_some] at hlookup
      refine ⟨_, hlookup, e.gives_boost _, ?_⟩
      simp only [hlast, Option.some.injEq, exists_eq_left'] at hmem
      rw [← hmem, ← hnames, List.mem_map]
      constructor
      · exact fun hb => ⟨_, hb, congrArg Cell.text (id_of_lastOf hlast)⟩
      · rintro ⟨b, hb, hname⟩
        have hfound := hlisted b hb
        rw [Cell.text.inj hname, hlookup] at hfound
        obtain rfl := Option.some.inj (Except.ok.inj hfound)
        exact hb

/-- A boost that has been moved to the sidebar and is not active any more is looked up there without
shares, though it is safe for all and another boost is active there, for nothing. -/
theorem active_listed_as_looked_up_moved :
    ∃ db boosts,
      [⟨"a", .newsfeed, true, 3, true⟩, ⟨"d", .newsfeed, true, 4, true⟩,
        ⟨"b", .newsfeed, false, 1, true⟩, ⟨"c", .sidebar, false, 0, true⟩,
        ⟨"d", .sidebar, true, 2, false⟩].foldlM putIn (migrate {}) = .ok db ∧
      db.active = .ok boosts ∧ boosts.Pairwise (·.id < ·.id) ∧
      (∀ b ∈ boosts, db.lookup b.id = .ok (some b)) ∧
      (∃ a ∈ boosts, db.lookup "a" = .ok (some a) ∧ a.safeForAll = true) ∧
      (∃ c ∈ boosts, db.lookup "c" = .ok (some c) ∧ c.location = .sidebar) ∧
      (∃ d ∉ boosts, db.lookup "d" = .ok (some d) ∧
        d = ⟨"d", .sidebar, true, ⟨some 0, some 0⟩⟩) ∧
      db.lookup "e" = .ok none := by
  have haccepted : ∀ e ∈ ([⟨"a", .newsfeed, true, 3, true⟩, ⟨"d", .newsfeed, true, 4, true⟩,
      ⟨"b", .newsfeed, false, 1, true⟩, ⟨"c", .sidebar, false, 0, true⟩,
      ⟨"d", .sidebar, true, 2, false⟩] : List BoostEntry), e.IsAccepted := by
    decide +kernel
  have hstart : (migrate {}).boosts = some {} := rfl
  obtain ⟨db, hdb⟩ := exists_foldlM_putIn hstart haccepted
  obtain ⟨boosts, hactive, hordered, hlisted, hlookup⟩ := active_listed_as_looked_up hstart hdb
  refine ⟨db, boosts, hdb, hactive, hordered, hlisted, ?_, ?_, ?_, hlookup "e"⟩
  · obtain ⟨a, ha, hgives, hmem⟩ := hlookup "a"
    exact ⟨a, hmem.mpr rfl, ha, hgives.safeForAll⟩
  · obtain ⟨c, hc, hgives, hmem⟩ := hlookup "c"
    exact ⟨c, hmem.mpr rfl, hc, hgives.location⟩
  · obtain ⟨d, hd, hgives, hmem⟩ := hlookup "d"
    refine ⟨d, fun h => absurd (hmem.mp h) (by decide), hd, ?_⟩
    have hshares (a : Audience) (hcompetes : d.Competes a) : d.shares.get? a = some 0 := by
      obtain ⟨x, hx⟩ := Option.isSome_iff_exists.mp ((hgives.declares a).mpr hcompetes)
      rw [hx, hgives.inactive rfl a x hx]
    have hgeneral := hshares .general d.competes_general
    have hsafe := hshares .safe (d.competes_safe_iff.mpr hgives.safeForAll)
    obtain ⟨hid, hlocation, hsafeForAll, -, -⟩ := hgives
    obtain ⟨id, location, safeForAll, general, safe⟩ := d
    cases hid
    cases hlocation
    cases hsafeForAll
    cases hgeneral
    cases hsafe
    rfl

end Database

end Pacing.Store
