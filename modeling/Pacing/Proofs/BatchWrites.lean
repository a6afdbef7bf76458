import Pacing.Proofs.StoredViews

/-!
# Batches that are written whole

A view may not be written when its sequence number is one that only boundaries have, or when its day
and cursor are taken, by a row of the table or by an earlier view of its batch. A batch without such
a view is added to the table as it is. Of any other batch nothing is written, and the error is that
of the first view that may not follow those before it.
-/

namespace Pacing.Store

variable {t t' : ViewTable} {db : Database} {v w : View} {batch front : List View}

/-! ## One row -/

namespace ViewTable

variable {r s : ViewRow} {rows rows' : List ViewRow}

/-- A row finds no place exactly when one of the rows has its key. -/
theorem place?_eq_none_iff (hordered : rows.Pairwise ViewRow.Before) :
    place? r rows = none ↔ ∃ s ∈ rows, compare r s = .eq := by
  induction rows with
  | nil => simp [place?]
  | cons s rest ih =>
    obtain ⟨hs, hrest⟩ := List.pairwise_cons.mp hordered
    rw [place?, List.exists_mem_cons_iff]
    cases hcompare : compare r s with
    | lt =>
      -- The later rows come after `s`, and so after the new row.
      have hlater : ¬∃ u ∈ rest, compare r u = .eq := by
        rintro ⟨u, hu, heq⟩
        have hlt : compare r u = .lt := Std.TransCmp.lt_trans hcompare (hs u hu)
        rw [heq] at hlt
        cases hlt
      simp [hlater]
    | eq => simp
    | gt => simpa using ih hrest

/-- A row that finds its place is added to the rows. -/
theorem perm_of_place? (hplace : place? r rows = some rows') : rows'.Perm (r :: rows) := by
  induction rows generalizing rows' with
  | nil =>
    cases hplace
    exact .refl _
  | cons s rest ih =>
    simp only [place?] at hplace
    split at hplace
    · cases hplace
      exact .refl _
    · cases hplace
    · obtain ⟨rest', hrest, rfl⟩ := Option.map_eq_some_iff.mp hplace
      exact ((ih hrest).cons s).trans (.swap r s rest)

/-- Whether a row of the table has the day and the cursor of a view. -/
def Has (t : ViewTable) (v : View) : Prop := ∃ r ∈ t.rows, compare (ViewRow.ofView v) r = .eq

instance (t : ViewTable) (v : View) : Decidable (t.Has v) := by unfold Has; infer_instance

/-- A row is added exactly when no row of the table has its key. -/
theorem insert_ofView_cases (t : ViewTable) (v : View) :
    (t.Has v ∧ t.insert (.ofView v) = .error (.unique ViewRow.keyColumns)) ∨
      (¬t.Has v ∧ ∃ t', t.insert (.ofView v) = .ok t' ∧
        t'.rows.Perm (.ofView v :: t.rows)) := by
  have hnone := place?_eq_none_iff (r := ViewRow.ofView v) t.ordered
  unfold insert
  split
  · rename_i rows hplace
    right
    constructor
    · intro htaken
      rw [hnone.mpr htaken] at hplace
      cases hplace
    · exact ⟨_, rfl, perm_of_place? hplace⟩
  · rename_i hplace
    exact .inl ⟨hnone.mp hplace, rfl⟩

end ViewTable

/-- The rows of two views have one key exactly when the views have one day and one cursor. -/
theorem ViewRow.compare_ofView_eq_eq :
    compare (ofView v) (ofView w) = .eq ↔ v.day = w.day ∧ v.cursor = w.cursor := by
  rw [compare_ofView]
  obtain ⟨c, tag, year, month, day⟩ := v
  obtain ⟨c', tag', year', month', day'⟩ := w
  have hcursor : compare c c' = .eq ↔ c = c' := by
    show compare c.position c'.position = .eq ↔ _
    rw [Int.compare_eq_eq, Cursor.position_inj]
  simp only [Ordering.then_eq_eq, Int.compare_eq_eq, Int.ofNat_inj, hcursor, Day.mk.injEq]
  tauto

/-- Among the rows that a row is added to are those of the views that were there before. -/
theorem ViewTable.has_iff_of_perm (hperm : t'.rows.Perm (.ofView v :: t.rows)) :
    t'.Has w ↔ (w.day = v.day ∧ w.cursor = v.cursor) ∨ t.Has w := by
  rw [← ViewRow.compare_ofView_eq_eq]
  constructor
  · rintro ⟨r, hr, heq⟩
    rcases List.mem_cons.mp (hperm.mem_iff.mp hr) with rfl | hr
    · exact .inl heq
    · exact .inr ⟨r, hr, heq⟩
  · rintro (heq | ⟨r, hr, heq⟩)
    · exact ⟨_, hperm.mem_iff.mpr List.mem_cons_self, heq⟩
    · exact ⟨r, hperm.mem_iff.mpr (List.mem_cons_of_mem _ hr), heq⟩

/-! ## One view -/

/-- Why a view is refused: for its sequence number if that is reserved, and otherwise because its
day and cursor are taken. -/
def refusal (v : View) : SourceError :=
  if v.cursor.isBoundary then .reservedSequence v.cursor
  else .store (.unique ViewRow.keyColumns)

/-- Whether a view may be written to a table. -/
def ViewTable.Admits (t : ViewTable) (v : View) : Prop :=
  v.cursor.isBoundary = false ∧ ¬t.Has v

/-- A view that may be written is added to the table. -/
theorem Database.append_of_admits (htable : db.views = some t) (hadmits : t.Admits v) :
    ∃ t', db.append v = .ok { db with views := some t' } ∧
      t'.rows.Perm (.ofView v :: t.rows) := by
  obtain ⟨hreserved, hfree⟩ := hadmits
  obtain ⟨htaken, -⟩ | ⟨-, t', hinsert, hperm⟩ := t.insert_ofView_cases v
  · exact absurd htaken hfree
  · refine ⟨t', ?_, hperm⟩
    simp [append, hreserved, htable, need, Except.bind, hinsert]

/-- A view that may not be written is refused. -/
theorem Database.append_of_not_admits (htable : db.views = some t) (hadmits : ¬t.Admits v) :
    db.append v = .error (refusal v) := by
  unfold refusal append
  cases hreserved : v.cursor.isBoundary with
  | true => simp
  | false =>
    obtain ⟨-, hinsert⟩ | ⟨hfree, -⟩ := t.insert_ofView_cases v
    · simp [htable, need, Except.bind, hinsert]
    · exact absurd ⟨hreserved, hfree⟩ hadmits

/-! ## A batch -/

/-- Whether a batch may be written to a table: no view of it has a reserved sequence number, and
none has the day and the cursor of a row of the table or of another view of the batch. -/
structure ViewTable.AdmitsAll (t : ViewTable) (batch : List View) : Prop where
  unreserved : ∀ v ∈ batch, v.cursor.isBoundary = false
  fresh : ∀ v ∈ batch, ¬t.Has v
  distinct : batch.Pairwise fun v w => ¬(v.day = w.day ∧ v.cursor = w.cursor)

instance (t : ViewTable) (batch : List View) : Decidable (t.AdmitsAll batch) :=
  decidable_of_iff ((∀ v ∈ batch, v.cursor.isBoundary = false) ∧ (∀ v ∈ batch, ¬t.Has v) ∧
      batch.Pairwise fun v w => ¬(v.day = w.day ∧ v.cursor = w.cursor))
    ⟨fun ⟨hunreserved, hfresh, hdistinct⟩ => ⟨hunreserved, hfresh, hdistinct⟩,
      fun h => ⟨h.unreserved, h.fresh, h.distinct⟩⟩

/-- A table admits a batch of no views. -/
theorem ViewTable.admitsAll_nil (t : ViewTable) : t.AdmitsAll [] :=
  ⟨List.forall_mem_nil _, List.forall_mem_nil _, List.Pairwise.nil⟩

/-- A batch may be written exactly when its first view may be, and the others to the table that has
that view. -/
theorem ViewTable.admitsAll_cons_iff (hperm : t'.rows.Perm (.ofView v :: t.rows)) :
    t.AdmitsAll (v :: batch) ↔ t.Admits v ∧ t'.AdmitsAll batch := by
  constructor
  · rintro ⟨hunreserved, hfresh, hdistinct⟩
    obtain ⟨hv, hrest⟩ := List.forall_mem_cons.mp hunreserved
    obtain ⟨hvfresh, hrestfresh⟩ := List.forall_mem_cons.mp hfresh
    obtain ⟨hvdistinct, hrestdistinct⟩ := List.pairwise_cons.mp hdistinct
    refine ⟨⟨hv, hvfresh⟩, hrest, fun w hw htaken => ?_, hrestdistinct⟩
    rcases (has_iff_of_perm hperm).mp htaken with ⟨hday, hcursor⟩ | htaken
    · exact hvdistinct w hw ⟨hday.symm, hcursor.symm⟩
    · exact hrestfresh w hw htaken
  · rintro ⟨⟨hv, hvfresh⟩, hrest, hrestfresh, hrestdistinct⟩
    refine ⟨List.forall_mem_cons.mpr ⟨hv, hrest⟩, List.forall_mem_cons.mpr ⟨hvfresh, ?_⟩,
      List.pairwise_cons.mpr ⟨?_, hrestdistinct⟩⟩
    · intro w hw htaken
      exact hrestfresh w hw ((has_iff_of_perm hperm).mpr (.inr htaken))
    · rintro w hw ⟨hday, hcursor⟩
      exact hrestfresh w hw ((has_iff_of_perm hperm).mpr (.inl ⟨hday.symm, hcursor.symm⟩))

/-- A batch that may be written is added to the table. -/
theorem Database.appendAll_of_admitsAll (htable : db.views = some t) (h : t.AdmitsAll batch) :
    ∃ t', db.appendAll batch = .ok { db with views := some t' } ∧
      t'.rows.Perm (t.rows ++ batch.map ViewRow.ofView) := by
  induction batch generalizing db t with
  | nil =>
    refine ⟨t, ?_, by simp⟩
    rw [← htable]
    rfl
  | cons v rest ih =>
    have hv : t.Admits v := ⟨h.unreserved v (by simp), h.fresh v (by simp)⟩
    obtain ⟨next, happend, hperm⟩ := append_of_admits htable hv
    have hrest := ((ViewTable.admitsAll_cons_iff hperm).mp h).2
    have hnext : ({ db with views := some next } : Database).views = some next := rfl
    obtain ⟨t', hrests, hperm'⟩ := ih hnext hrest
    refine ⟨t', ?_, ?_⟩
    · rw [appendAll, List.foldlM_cons, happend]
      exact hrests
    · refine hperm'.trans ((hperm.append_right _).trans ?_)
      exact List.perm_middle.symm

/-- A batch that may not be written is refused for its first view that may not follow those before
it. -/
theorem Database.appendAll_of_not_admitsAll (htable : db.views = some t)
    (h : ¬t.AdmitsAll batch) :
    ∃ front v rest, batch = front ++ v :: rest ∧ t.AdmitsAll front ∧
      ¬t.AdmitsAll (front ++ [v]) ∧ db.appendAll batch = .error (refusal v) := by
  induction batch generalizing db t with
  | nil => exact absurd t.admitsAll_nil h
  | cons v rest ih =>
    by_cases hv : t.Admits v
    · obtain ⟨next, happend, hperm⟩ := append_of_admits htable hv
      have hcons {views : List View} :
          t.AdmitsAll (v :: views) ↔ t.Admits v ∧ next.AdmitsAll views :=
        ViewTable.admitsAll_cons_iff hperm
      have hnext : ({ db with views := some next } : Database).views = some next := rfl
      have hrest : ¬next.AdmitsAll rest := fun hrest => h (hcons.mpr ⟨hv, hrest⟩)
      obtain ⟨front, w, rest, rfl, hfront, hw, hrefused⟩ := ih hnext hrest
      refine ⟨v :: front, w, rest, rfl, hcons.mpr ⟨hv, hfront⟩, fun hfit => ?_, ?_⟩
      · exact hw (hcons.mp hfit).2
      · rw [appendAll, List.foldlM_cons, happend]
        exact hrefused
    · refine ⟨[], v, rest, rfl, t.admitsAll_nil, fun hfit => ?_, ?_⟩
      · exact hv ⟨hfit.unreserved v (by simp), hfit.fresh v (by simp)⟩
      · rw [appendAll, List.foldlM_cons, append_of_not_admits htable hv]
        rfl

namespace Archive

/-- A batch is accepted exactly when it may be written to the table. Then the table has its old rows
and those of the batch. Otherwise everything is as it was before, and the error tells what is wrong
with the first view that may not follow those before it: that its sequence number is reserved, or
that its day and cursor are taken. -/
theorem append_whole_or_not (a : Archive) (htable : a.database.views = some t)
    (batch : List View) :
    ((∃ db, a.database.appendAll batch = .ok db) ↔ t.AdmitsAll batch) ∧
      (t.AdmitsAll batch → ∃ t', t'.rows.Perm (t.rows ++ batch.map ViewRow.ofView) ∧
        a.write (.append batch) =
          { database := { a.database with views := some t' }, written := a.written ++ batch }) ∧
      (¬t.AdmitsAll batch → a.write (.append batch) = a ∧
        ∃ front v rest, batch = front ++ v :: rest ∧ t.AdmitsAll front ∧
          ¬t.AdmitsAll (front ++ [v]) ∧ a.database.appendAll batch = .error (refusal v)) := by
  refine ⟨⟨?_, ?_⟩, ?_, ?_⟩
  · rintro ⟨db, hwrite⟩
    by_contra h
    obtain ⟨_, v, _, -, -, -, hrefused⟩ := Database.appendAll_of_not_admitsAll htable h
    rw [hrefused] at hwrite
    cases hwrite
  · intro h
    obtain ⟨t', hwrite, -⟩ := Database.appendAll_of_admitsAll htable h
    exact ⟨_, hwrite⟩
  · intro h
    obtain ⟨t', hwrite, hperm⟩ := Database.appendAll_of_admitsAll htable h
    exact ⟨t', hperm, by simp only [write, hwrite]⟩
  · intro h
    obtain ⟨front, v, rest, hsplit, hfront, hv, hrefused⟩ :=
      Database.appendAll_of_not_admitsAll htable h
    exact ⟨by simp only [write, hrefused], front, v, rest, hsplit, hfront, hv, hrefused⟩

/-- A table with one view. -/
def oneView : ViewTable := { rows := [.ofView (.filed ⟨5, 1⟩ "a")] }

/-- The second view of the batch has the place of the view in the table, so the first is not written
either. That the third has a reserved sequence number does not matter any more. -/
theorem append_whole_or_not_taken :
    let a : Archive := { database := { views := some oneView }, written := [.filed ⟨5, 1⟩ "a"] }
    let batch : List View := [.filed ⟨4, 1⟩ "b", .filed ⟨5, 1⟩ "c", .filed ⟨6, 0⟩ "d"]
    a.database.views = some oneView ∧ ¬oneView.AdmitsAll batch ∧
      a.database.appendAll batch = .error (.store (.unique ViewRow.keyColumns)) ∧
      ((∃ db, a.database.appendAll batch = .ok db) ↔ oneView.AdmitsAll batch) ∧
      (oneView.AdmitsAll batch → ∃ t', t'.rows.Perm (oneView.rows ++ batch.map ViewRow.ofView) ∧
        a.write (.append batch) =
          { database := { a.database with views := some t' }, written := a.written ++ batch }) ∧
      (¬oneView.AdmitsAll batch → a.write (.append batch) = a ∧
        ∃ front v rest, batch = front ++ v :: rest ∧ oneView.AdmitsAll front ∧
          ¬oneView.AdmitsAll (front ++ [v]) ∧
          a.database.appendAll batch = .error (refusal v)) := by
  intro a batch
  exact ⟨rfl, by decide +kernel, by rfl, append_whole_or_not a rfl batch⟩

end Archive

end Pacing.Store
