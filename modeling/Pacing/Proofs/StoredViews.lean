import Pacing.Proofs.Chronicle
import Pacing.Proofs.ViewRows
import Pacing.Store.Database

/-!
# What the table of views holds

Views reach the table in batches, which are written as a whole or not at all, and one by one under
the next free sequence number. In whatever way they came, the rows of the table are those of a log
in memory of the same views, in the same order.
-/

namespace Pacing

namespace Store.ViewRow

/-- Rows of views are compared by their days first and by their cursors second. -/
theorem compare_ofView (v w : View) : compare (ofView v) (ofView w) =
    (compare v.day.year w.day.year).then ((compare (v.day.month : Int) w.day.month).then
      ((compare (v.day.day : Int) w.day.day).then (compare v.cursor w.cursor))) := by
  rw [← Cursor.compare_ts_then_seq]
  show compareLex _ _ _ _ = _
  simp only [compareLex, compareOn, ofView, Cell.compare_integer]

/-- The row of a view comes before that of another exactly when the view does. -/
theorem compare_ofView_eq_lt {v w : View} :
    compare (ofView v) (ofView w) = .lt ↔ v.Before w := by
  obtain ⟨c, tag, year, month, day⟩ := v
  obtain ⟨c', tag', year', month', day'⟩ := w
  simp only [compare_ofView, Ordering.then_eq_lt, Int.compare_eq_lt, Int.compare_eq_eq,
    Cursor.compare_eq_lt, View.Before, Day.lt_iff, Day.mk.injEq, Int.ofNat_lt, Int.ofNat_inj]
  tauto

end Store.ViewRow

/-! ## Placing rows -/

namespace Memory.Log

/-- What is filed after some views is pushed onto the log of these. -/
theorem filing_concat (views : List View) (v : View) :
    filing (views ++ [v]) = (filing views).push v := by
  simp [filing, pushAll]

end Memory.Log

/-- A row finds its place among rows of views exactly when its key is free. That is the place of its
view among these views, none of which gives way to it. -/
theorem Store.ViewTable.place?_map_ofView {v : View} {views : List View}
    {rows : List Store.ViewRow}
    (hplace : place? (.ofView v) (views.map Store.ViewRow.ofView) = some rows) :
    rows = (Memory.Log.place v views).map Store.ViewRow.ofView ∧
      (Memory.Log.place v views).Perm (v :: views) := by
  induction views generalizing rows with
  | nil =>
    cases hplace
    exact ⟨rfl, .refl _⟩
  | cons w rest ih =>
    simp only [List.map_cons, place?] at hplace
    split at hplace
    · rename_i hlt
      cases hplace
      rw [Memory.Log.place, if_pos (Store.ViewRow.compare_ofView_eq_lt.mp hlt)]
      exact ⟨rfl, .refl _⟩
    · cases hplace
    · rename_i hgt
      obtain ⟨rest', hrest, rfl⟩ := Option.map_eq_some_iff.mp hplace
      obtain ⟨rfl, hperm⟩ := ih hrest
      have hbefore : w.Before v :=
        Store.ViewRow.compare_ofView_eq_lt.mp (Std.OrientedCmp.lt_of_gt hgt)
      have hnot : ¬v.Before w := fun h => by
        rw [Store.ViewRow.compare_ofView_eq_lt.mpr h] at hgt
        cases hgt
      rw [Memory.Log.place, if_neg hnot, if_pos hbefore]
      exact ⟨rfl, (hperm.cons w).trans (.swap v w rest)⟩

namespace Store

/-- A row that is added takes its place. -/
theorem ViewTable.place?_of_insert {t t' : ViewTable} {r : ViewRow}
    (hinsert : t.insert r = .ok t') : place? r t.rows = some t'.rows := by
  unfold insert at hinsert
  split at hinsert
  · rename_i rows hplace
    cases hinsert
    exact hplace
  · cases hinsert

/-! ## Writing views -/

/-- The table of a database has the rows of given views, in the order in which a log in memory keeps
them, and no two of the views share a day and a cursor. -/
structure Database.Stores (db : Database) (views : List View) : Prop where
  rows_eq : db.views.map ViewTable.rows =
    some ((Memory.Log.filing views).views.map ViewRow.ofView)
  perm : (Memory.Log.filing views).views.Perm views

namespace Database.Stores

variable {db db' : Database} {views : List View}

/-- An empty table stores no views. -/
theorem empty : (migrate {}).Stores [] := ⟨rfl, .nil⟩

/-- A view that is written is stored after the others. -/
theorem append (h : db.Stores views) {v : View} (hwrite : db.append v = .ok db') :
    db'.Stores (views ++ [v]) := by
  obtain ⟨t, ht, hrows⟩ := Option.map_eq_some_iff.mp h.rows_eq
  unfold Database.append at hwrite
  split at hwrite
  · cases hwrite
  · simp only [ht, need, Except.bind] at hwrite
    split at hwrite
    · rename_i t' hinsert
      cases hwrite
      have hplace := ViewTable.place?_of_insert hinsert
      rw [hrows] at hplace
      obtain ⟨hrows', hperm⟩ := ViewTable.place?_map_ofView hplace
      have hfiling : (Memory.Log.filing (views ++ [v])).views =
          Memory.Log.place v (Memory.Log.filing views).views := by
        rw [Memory.Log.filing_concat]
        rfl
      refine ⟨by simp [hrows', hfiling], ?_⟩
      rw [hfiling]
      exact hperm.trans ((h.perm.cons v).trans (List.perm_append_singleton v views).symm)
    · cases hwrite

/-- A batch of views that is written is stored after the others. -/
theorem appendAll (h : db.Stores views) {batch : List View}
    (hwrite : db.appendAll batch = .ok db') : db'.Stores (views ++ batch) := by
  induction batch generalizing db views with
  | nil =>
    cases hwrite
    simpa using h
  | cons v rest ih =>
    obtain ⟨next, hfirst, hrest⟩ := foldlM_cons_eq_ok_iff.mp hwrite
    simpa using ih (h.append hfirst) hrest

/-- A view that is recorded is stored after the others, under its timestamp's own day. -/
theorem record (h : db.Stores views) {ts : Int64} {tag : String} {cursor : Cursor}
    (hwrite : db.record ts tag = .ok (db', cursor)) :
    db'.Stores (views ++ [.filed cursor tag]) := by
  unfold Database.record at hwrite
  obtain ⟨last, -, hwrite⟩ := bind_eq_ok_iff.mp hwrite
  dsimp only at hwrite
  split at hwrite
  · obtain ⟨next, happend, hwrite⟩ := bind_eq_ok_iff.mp hwrite
    cases hwrite
    exact h.append happend
  · cases hwrite

end Database.Stores

/-- A way in which views reach the table. -/
inductive Write where
  /-- Views are written in one batch. -/
  | append (batch : List View)
  /-- A view is recorded at a time. -/
  | record (ts : Int64) (tag : String)

/-- A database with what was written to its table of views. -/
structure Archive where
  /-- The database. -/
  database : Database := .migrate {}
  /-- The views that were written, in the order of writing. -/
  written : List View := []

namespace Archive

/-- The archive after a write; one that fails leaves it as it is. -/
def write (a : Archive) : Write → Archive
  | .append batch =>
    match a.database.appendAll batch with
    | .ok database => { database, written := a.written ++ batch }
    | .error _ => a
  | .record ts tag =>
    match a.database.record ts tag with
    | .ok (database, cursor) => { database, written := a.written ++ [.filed cursor tag] }
    | .error _ => a

/-- The archive after several writes. -/
def writeAll (a : Archive) (writes : List Write) : Archive := writes.foldl write a

/-- The table still stores what was written after another write. -/
theorem stores_write {a : Archive} (h : a.database.Stores a.written) (w : Write) :
    (a.write w).database.Stores (a.write w).written := by
  cases w with
  | append batch =>
    cases hwrite : a.database.appendAll batch with
    | ok database => simpa only [write, hwrite] using h.appendAll hwrite
    | error e => simpa only [write, hwrite] using h
  | record ts tag =>
    cases hwrite : a.database.record ts tag with
    | ok done => simpa only [write, hwrite] using h.record hwrite
    | error e => simpa only [write, hwrite] using h

/-- Whatever is written, the table stores what was accepted. -/
theorem stores_writeAll (writes : List Write) :
    (writeAll {} writes).database.Stores (writeAll {} writes).written := by
  have hrun : ∀ a : Archive, a.database.Stores a.written →
      (a.writeAll writes).database.Stores (a.writeAll writes).written := by
    induction writes with
    | nil => exact fun _ h => h
    | cons w rest ih => exact fun a h => ih (a.write w) (stores_write h w)
  exact hrun {} .empty

end Archive

end Store

end Pacing
