import Recoding.CodeTable
import Recoding.Proofs.Outcome

/-!
# Cells of tables

Every cell in range has a place of its own among the cells of a table. So a table is known by its
entries, and a write changes the entry of one cell only.
-/

namespace Recoding

theorem getElem?_concat {α : Type} (xs : List α) (x : α) (i : Nat) :
    (xs ++ [x])[i]? = if i = xs.length then some x else xs[i]? := by
  rcases Nat.lt_trichotomy i xs.length with hlt | rfl | hgt
  · rw [List.getElem?_append_left hlt, if_neg hlt.ne]
  · rw [List.getElem?_concat_length, if_pos rfl]
  · rw [if_neg hgt.ne', List.getElem?_eq_none hgt.le, List.getElem?_eq_none (by simpa using hgt)]

theorem getElem?_flatten {chunks : List (List Nat)} {stride : Nat}
    (h : ∀ chunk ∈ chunks, chunk.length = stride) {k i : Nat} (hi : i < stride) :
    chunks.flatten[k * stride + i]? = chunks[k]? >>= (·[i]?) := by
  induction chunks generalizing k with
  | nil => rfl
  | cons chunk chunks ih =>
    have hlength := h chunk List.mem_cons_self
    cases k with
    | zero =>
      rw [List.flatten_cons, Nat.zero_mul, Nat.zero_add,
        List.getElem?_append_left (lt_of_lt_of_eq hi hlength.symm)]
      rfl
    | succ k =>
      rw [List.flatten_cons, List.getElem?_append_right (by rw [hlength, Nat.succ_mul]; omega),
        hlength, show (k + 1) * stride + i - stride = k * stride + i by
          rw [Nat.succ_mul]; omega,
        ih fun c hc => h c (List.mem_cons_of_mem _ hc)]
      rfl

namespace CodeTable

/-! ## Places -/

section
variable {rows columns row column : Nat}

theorem place_lt (hr : row < rows) (hc : column < columns) :
    column * rows + row < rows * columns := by
  have hle : (column + 1) * rows ≤ columns * rows := Nat.mul_le_mul_right rows hc
  rw [Nat.succ_mul, Nat.mul_comm columns] at hle
  omega

theorem place_eq_iff (hr : row < rows) (column place : Nat) :
    column * rows + row = place ↔ place % rows = row ∧ place / rows = column := by
  rw [and_comm, Nat.div_mod_unique (Nat.zero_lt_of_lt hr), and_iff_left hr, Nat.add_comm,
    Nat.mul_comm]

end

/-! ## Entries -/

theorem exists_cell (t : CodeTable) {row column : Nat} (hr : row < t.rows)
    (hc : column < t.columns) : ∃ value, t.get? row column = some value := by
  have hlt : column * t.rows + row < t.cells.size := by
    rw [t.size_eq]
    exact place_lt hr hc
  exact ⟨_, Array.getElem?_eq_getElem hlt⟩

theorem mapM_get? {t : CodeTable} {rows : List Nat} (hrows : ∀ row ∈ rows, row < t.rows)
    {column : Nat} (hc : column < t.columns) : (rows.mapM fun row => t.get? row column) =
      some (rows.map fun row => (t.get? row column).getD 0) := by
  refine mapM_eq_some_map fun row hrow => ?_
  obtain ⟨value, hvalue⟩ := t.exists_cell (hrows row hrow) hc
  rw [hvalue, Option.getD_some]

theorem column?_eq {t : CodeTable} {column : Nat} (hc : column < t.columns) :
    t.column? column = some ((List.range t.rows).map fun row => (t.get? row column).getD 0) :=
  mapM_get? (fun _ => List.mem_range.mp) hc

theorem mem_column {t : CodeTable} {row column value : Nat} (hr : row < t.rows)
    (hc : column < t.columns) (hv : t.get? row column = some value) :
    value ∈ (t.column? column).getD [] := by
  rw [column?_eq hc]
  exact List.mem_map.mpr ⟨row, List.mem_range.mpr hr, by simp [hv]⟩

theorem get?_tabulate {rows columns : Nat} {entry : Nat → Nat → Nat} {row column : Nat}
    (hr : row < rows) (hc : column < columns) :
    (tabulate rows columns entry).get? row column = some (entry row column) := by
  obtain ⟨hmod, hdiv⟩ := (place_eq_iff hr column _).mp rfl
  simp [get?, tabulate, place_lt hr hc, hmod, hdiv]

theorem tabulate_congr {rows columns : Nat} {entry other : Nat → Nat → Nat}
    (h : ∀ row < rows, ∀ column < columns, entry row column = other row column) :
    tabulate rows columns entry = tabulate rows columns other := by
  have hcells : (Array.ofFn fun i : Fin (rows * columns) => entry (i.val % rows) (i.val / rows)) =
      Array.ofFn fun i : Fin (rows * columns) => other (i.val % rows) (i.val / rows) := by
    congr 1
    funext i
    have hrows : 0 < rows := Nat.pos_of_mul_pos_right (Nat.zero_lt_of_lt i.isLt)
    exact h _ (Nat.mod_lt _ hrows) _ (Nat.div_lt_of_lt_mul i.isLt)
  simp only [tabulate, hcells]

theorem record?_tabulate {rows columns : Nat} {entry : Nat → Nat → Nat} {row : Nat}
    (hr : row < rows) : (tabulate rows columns entry).record? row =
      some ((List.range columns).map (entry row)) :=
  mapM_eq_some_map fun _ hc => get?_tabulate hr (List.mem_range.mp hc)

theorem eq_tabulate (t : CodeTable) :
    t = tabulate t.rows t.columns fun row column => (t.get? row column).getD 0 := by
  have hcells : t.cells =
      (tabulate t.rows t.columns fun row column => (t.get? row column).getD 0).cells := by
    refine Array.ext (by simp [tabulate, t.size_eq]) fun i hi _ => ?_
    simp [tabulate, get?, Nat.div_add_mod', hi]
  rw [CodeTable.mk.injEq]
  exact ⟨rfl, rfl, hcells⟩

theorem ext_get? {t u : CodeTable} (hrows : t.rows = u.rows) (hcolumns : t.columns = u.columns)
    (h : ∀ row < t.rows, ∀ column < t.columns, t.get? row column = u.get? row column) :
    t = u := by
  rw [eq_tabulate t, eq_tabulate u, ← hrows, ← hcolumns]
  exact tabulate_congr fun row hr column hc => by rw [h row hr column hc]

/-! ## Writes -/

section
variable {rows columns : Nat} {entry : Nat → Nat → Nat}

theorem set_tabulate {row : Nat} (hr : row < rows) (column value : Nat) :
    (tabulate rows columns entry).set row column value =
      tabulate rows columns fun r c => if r = row ∧ c = column then value else entry r c := by
  have hcells : (tabulate rows columns entry).cells.setIfInBounds (column * rows + row) value =
      (tabulate rows columns fun r c =>
        if r = row ∧ c = column then value else entry r c).cells := by
    refine Array.ext (by simp [tabulate]) fun i hi _ => ?_
    rw [Array.getElem_setIfInBounds (by simpa using hi)]
    simp only [place_eq_iff hr, tabulate, Array.getElem_ofFn]
  rw [CodeTable.mk.injEq]
  exact ⟨rfl, rfl, hcells⟩

theorem setAll_tabulate {places : List Nat} (h : ∀ row ∈ places, row < rows)
    (column value : Nat) :
    places.foldl (fun out row => out.set row column value) (tabulate rows columns entry) =
      tabulate rows columns fun r c => if r ∈ places ∧ c = column then value else entry r c := by
  induction places generalizing entry with
  | nil => simp
  | cons row rest ih =>
    obtain ⟨hrow, hrest⟩ := List.forall_mem_cons.mp h
    rw [List.foldl_cons, set_tabulate hrow, ih hrest]
    refine tabulate_congr fun r _ c _ => ?_
    by_cases hr : r = row <;> by_cases hc : c = column <;> simp [hr, hc]

end

end CodeTable
end Recoding
