import Recoding.Proofs.Dataset.Writes

/-!
# Storage by columns

Records that are written one after the other, and columns that are joined, make the same table if
the columns are the transposed records. Whatever is then written to cells and rows in range, every
cell holds the value that was last written to it, since no two cells share a place.
-/

namespace Recoding

/-! ## Transposed records -/

theorem mapM_pop {lists : List (List Nat)} {values : List Nat} (h : lists.length ≤ values.length) :
    StateT.run (lists.mapM List.transpose.pop) values =
      pure (List.zipWith List.cons values lists, values.drop lists.length) := by
  induction lists generalizing values with
  | nil => simp
  | cons list rest ih =>
    cases values with
    | nil => simp at h
    | cons value values =>
      have hpop : StateT.run (List.transpose.pop list) (value :: values) =
        pure (value :: list, values) := rfl
      simp [List.mapM_cons, hpop, ih (Nat.le_of_succ_le_succ h)]

theorem toList_go {lists : Array (List Nat)} {values : List Nat} (h : lists.size ≤ values.length) :
    (List.transpose.go values lists).toList =
      List.zipWith List.cons values lists.toList ++ (values.drop lists.size).map ([·]) := by
  have hpop := mapM_pop (show lists.toList.length ≤ values.length from h)
  have hrun : StateT.run (lists.mapM List.transpose.pop) values =
      pure ((List.zipWith List.cons values lists.toList).toArray, values.drop lists.size) := by
    rw [Array.mapM_eq_mapM_toList]
    simp [hpop]
  have hgo : List.transpose.go values lists =
      Id.run (StateT.run (lists.mapM List.transpose.pop) values >>= fun (lists, rest) =>
        pure (rest.foldl (fun lists value => lists.push [value]) lists)) := rfl
  rw [hgo, hrun]
  simp

theorem transpose_eq {records : List (List Nat)} {width : Nat} (hne : records ≠ [])
    (h : ∀ record ∈ records, record.length = width) : records.transpose =
      (List.range width).map fun column => records.map (·.getD column 0) := by
  induction records with
  | nil => exact absurd rfl hne
  | cons record rest ih =>
    obtain ⟨rfl, hrest⟩ := List.forall_mem_cons.mp h
    by_cases hlast : rest = []
    · subst hlast
      have hsingle : [record].transpose = record.map ([·]) := by
        rw [List.transpose, List.foldr_cons, List.foldr_nil, toList_go (Nat.zero_le _)]
        simp
      rw [hsingle]
      apply List.ext_getElem
      · simp
      · intro column hc _
        have hlt : column < record.length := by simpa using hc
        simp [hlt]
    · have hcolumns : (rest.foldr List.transpose.go #[]).toList =
          (List.range record.length).map fun column => rest.map (·.getD column 0) :=
        ih hlast hrest
      have hsize : (rest.foldr List.transpose.go #[]).size = record.length := by
        rw [← Array.length_toList, hcolumns]
        simp
      rw [List.transpose, List.foldr_cons, toList_go hsize.le, hcolumns]
      apply List.ext_getElem
      · simp [hsize]
      · intro column hc _
        have hlt : column < record.length := by simpa [hsize] using hc
        simp [hsize, hlt]

theorem headD_length {width : Nat} {lists : List (List Nat)} (hne : lists ≠ [])
    (h : ∀ list ∈ lists, list.length = width) : (lists.headD []).length = width := by
  cases lists with
  | nil => exact absurd rfl hne
  | cons list rest => exact h list List.mem_cons_self

namespace CodeTable

/-! ## Records -/

/-- Records that fit a table are written to its first rows. -/
theorem foldlM_setRecord?_tabulate {rows columns : Nat} {entry : Nat → Nat → Nat}
    {records : List (List Nat)} (h : records.length ≤ rows) :
    records.zipIdx.foldlM (fun t p => t.setRecord? p.2 p.1) (tabulate rows columns entry) =
      some (tabulate rows columns fun r c =>
        (records[r]?.bind (·[c]?)).getD (entry r c)) := by
  induction records using List.reverseRecOn with
  | nil => simp
  | append_singleton records record ih =>
    rw [List.length_append, List.length_singleton] at h
    rw [List.zipIdx_append, List.foldlM_append, ih (by omega), Option.bind_eq_bind,
      Option.bind_some, zero_add, List.zipIdx_singleton, List.foldlM_cons,
      setRecord?_eq (t := tabulate rows columns _) h, setRecord_tabulate h]
    refine congrArg some (tabulate_congr fun r _ c _ => ?_)
    rw [getElem?_concat]
    by_cases hr : r = records.length <;> simp [hr]

theorem ofRecords_eq {records : List (List Nat)} {width : Nat} (hne : records ≠ [])
    (h : ∀ record ∈ records, record.length = width) : ofRecords records =
      .ok (tabulate records.length width fun r c => (records[r]?.bind (·[c]?)).getD 0) := by
  unfold ofRecords
  dsimp only
  rw [headD_length hne h, misfit?_eq_none.mpr h]
  exact congrArg Failure.found (foldlM_setRecord?_tabulate le_rfl)

/-! ## Columns -/

/-- Columns are refused because of the first misfit, or their values are the cells. -/
theorem ofColumns_cases (columns : List (List Nat)) :
    (∃ column index, misfit? (columns.headD []).length columns = some (column, index) ∧
      ofColumns columns =
        .error (.extent (.columnLength index) (columns.headD []).length column.length)) ∨
    (misfit? (columns.headD []).length columns = none ∧ ∃ t, ofColumns columns = .ok t ∧
      t.rows = (columns.headD []).length ∧ t.columns = columns.length ∧
      t.cells = columns.flatten.toArray) := by
  unfold ofColumns
  dsimp only
  split
  · rename_i column index hmisfit
    exact .inl ⟨column, index, hmisfit, rfl⟩
  · rename_i hmisfit
    exact .inr ⟨hmisfit, _, rfl, rfl, rfl, rfl⟩

theorem exists_ofColumns {columns : List (List Nat)} {height : Nat} (hne : columns ≠ [])
    (h : ∀ column ∈ columns, column.length = height) : ∃ t, ofColumns columns = .ok t ∧
      t.rows = height ∧ t.columns = columns.length ∧
      ∀ row < height, ∀ column, t.get? row column = columns[column]?.bind (·[row]?) := by
  obtain rfl := headD_length hne h
  rcases ofColumns_cases columns with
    ⟨column, index, hmisfit, -⟩ | ⟨-, t, ht, hrows, hcolumns, hcells⟩
  · rw [misfit?_eq_none.mpr h] at hmisfit
    cases hmisfit
  · refine ⟨t, ht, hrows, hcolumns, fun row hr column => ?_⟩
    rw [get?, hcells, hrows, List.getElem?_toArray]
    exact getElem?_flatten h hr

/-! ## Lists of several lengths -/

theorem misfit?_eq_some {length index : Nat} {lists : List (List Nat)} {list : List Nat}
    (h : misfit? length lists = some (list, index)) : lists[index]? = some list ∧
      list.length ≠ length ∧ ∀ earlier ∈ lists.take index, earlier.length = length := by
  obtain ⟨hlength, i, hi, hzip, hbefore⟩ := List.find?_eq_some_iff_getElem.mp h
  rw [List.getElem_zipIdx, zero_add, Prod.mk.injEq] at hzip
  obtain ⟨rfl, rfl⟩ := hzip
  rw [List.length_zipIdx] at hi
  refine ⟨List.getElem?_eq_getElem hi, by simpa using hlength, fun earlier hearlier => ?_⟩
  obtain ⟨j, hj, rfl⟩ := List.mem_take_iff_getElem.mp hearlier
  simpa using hbefore j (by omega)

/-- Lists of several lengths have a first one whose length is not that of the first. -/
theorem exists_misfit {lists : List (List Nat)}
    (h : ∃ list ∈ lists, ∃ other ∈ lists, list.length ≠ other.length) :
    ∃ list index, misfit? (lists.headD []).length lists = some (list, index) := by
  obtain ⟨list, hlist, other, hother, hne⟩ := h
  cases hmisfit : misfit? (lists.headD []).length lists with
  | none =>
    rw [misfit?_eq_none] at hmisfit
    exact absurd ((hmisfit list hlist).trans (hmisfit other hother).symm) hne
  | some p => exact ⟨p.1, p.2, rfl⟩

section
variable {lists : List (List Nat)} {list : List Nat} {index : Nat}
  (h : misfit? (lists.headD []).length lists = some (list, index))
include h

theorem ofRecords_misfit : ofRecords lists =
    .error (.extent (.recordWidth index) (lists.headD []).length list.length) := by
  simp only [ofRecords, h]

theorem ofColumns_misfit : ofColumns lists =
    .error (.extent (.columnLength index) (lists.headD []).length list.length) := by
  rcases ofColumns_cases lists with ⟨own, place, hown, herror⟩ | ⟨hnone, -⟩
  · rw [h] at hown
    cases hown
    exact herror
  · rw [h] at hnone
    cases hnone

end

/-! ## Tables of records -/

/-- A table of records: its rows are the records, and its columns their attributes. -/
structure Stores (t : CodeTable) (records : List (List Nat)) (width : Nat) : Prop where
  rows : t.rows = records.length
  columns : t.columns = width
  record : ∀ row record, records[row]? = some record → t.record? row = some record ∧
    t.copyRecord? row (List.replicate width 0) = some record
  column : ∀ column < width, ∃ values, t.column? column = some values ∧
    records.mapM (·[column]?) = some values ∧
    (t.cells.extract (column * t.rows) (column * t.rows + t.rows)).toList = values
  cell : ∀ row record column value, records[row]? = some record → record[column]? = some value →
    t.get? row column = some value

theorem stores_of_cells {t : CodeTable} {records : List (List Nat)} {width : Nat}
    (hrows : t.rows = records.length) (hcolumns : t.columns = width)
    (h : ∀ record ∈ records, record.length = width)
    (hcell : ∀ row record column value, records[row]? = some record →
      record[column]? = some value → t.get? row column = some value) : t.Stores records width where
  rows := hrows
  columns := hcolumns
  cell := hcell
  record := by
    intro row record hrecord
    obtain ⟨hrow, -⟩ := List.getElem?_eq_some_iff.mp hrecord
    have hread : t.record? row = some record := by
      rw [record?, hcolumns, ← h record (List.mem_of_getElem? hrecord)]
      exact mapM_range fun column hc =>
        hcell row record column record[column] hrecord (List.getElem?_eq_getElem hc)
    refine ⟨hread, ?_⟩
    rw [← hcolumns, copyRecord?_replicate (hrows ▸ hrow), hread]
  column := by
    intro column hc
    obtain ⟨values, hvalues⟩ : ∃ values, records.mapM (·[column]?) = some values :=
      mapM_some fun record hrecord =>
        ⟨_, List.getElem?_eq_getElem (hc.trans_eq (h record hrecord).symm)⟩
    have hall := forall₂_mapM_some hvalues
    have hread : t.column? column = some values := by
      rw [column?, hrows, hall.length_eq]
      refine mapM_range fun row hr => ?_
      have hr' : row < records.length := hall.length_eq ▸ hr
      exact hcell row records[row] column values[row] (List.getElem?_eq_getElem hr')
        (hall.get hr' hr)
    refine ⟨values, hread, hvalues, ?_⟩
    rw [column?_eq_extract (hcolumns ▸ hc)] at hread
    exact Option.some.inj hread

theorem exists_stores {records : List (List Nat)} {width : Nat} (hne : records ≠ [])
    (h : ∀ record ∈ records, record.length = width) :
    ∃ t, ofRecords records = .ok t ∧ t.Stores records width := by
  refine ⟨_, ofRecords_eq hne h, stores_of_cells rfl rfl h ?_⟩
  intro row record column value hrecord hvalue
  obtain ⟨hr, -⟩ := List.getElem?_eq_some_iff.mp hrecord
  obtain ⟨hc, -⟩ := List.getElem?_eq_some_iff.mp hvalue
  rw [get?_tabulate hr (hc.trans_eq (h record (List.mem_of_getElem? hrecord)))]
  simp [hrecord, hvalue]

theorem Stores.ofColumns_transpose {t : CodeTable} {records : List (List Nat)} {width : Nat}
    (ht : t.Stores records width) (hne : records ≠ []) (hpos : 0 < width)
    (h : ∀ record ∈ records, record.length = width) : ofColumns records.transpose = .ok t := by
  have hcolumns := transpose_eq hne h
  have hlengths : ∀ column ∈ records.transpose, column.length = records.length := by
    simp [hcolumns]
  obtain ⟨u, hu, hurows, hucolumns, hucell⟩ := exists_ofColumns
    (show records.transpose ≠ [] by simp [hcolumns, hpos.ne']) hlengths
  rw [hu]
  refine congrArg Except.ok (ext_get? (hurows.trans ht.rows.symm) ?_ fun row hr column hc => ?_)
  · rw [hucolumns, ht.columns, hcolumns]
    simp
  · rw [hurows] at hr
    rw [hucolumns, hcolumns, List.length_map, List.length_range] at hc
    have hvalue : records[row][column]? = some (records[row].getD column 0) := by
      have hlt : column < records[row].length := hc.trans_eq (h _ (List.getElem_mem hr)).symm
      simp [hlt]
    rw [hucell row hr, ht.cell row _ column _ (List.getElem?_eq_getElem hr) hvalue, hcolumns]
    simp [hc, hr]

end CodeTable
end Recoding
