import Recoding.Proofs.Dataset.Cells

/-!
# Reading and writing tables

Every read of a table in range finds its cells, and every write in range changes the cells that it
names and no others. So after any writes a cell holds the value that was last written to it, or its
first one.
-/

namespace Recoding.CodeTable

/-! ## Reading -/

theorem column?_eq_extract {t : CodeTable} {column : Nat} (hc : column < t.columns) :
    t.column? column =
      some (t.cells.extract (column * t.rows) (column * t.rows + t.rows)).toList := by
  have hle : column * t.rows + t.rows ≤ t.cells.size := by
    rw [t.size_eq, ← Nat.succ_mul, Nat.mul_comm t.rows]
    exact Nat.mul_le_mul_right _ hc
  rw [column?_eq hc]
  refine congrArg some (List.ext_getElem (by simp; omega) fun row hr _ => ?_)
  have hlt : column * t.rows + row < t.cells.size := by
    simp only [List.length_map, List.length_range] at hr
    omega
  simp [get?, hlt]

theorem copyRecord?_replicate {t : CodeTable} {row : Nat} (hr : row < t.rows) (slot : Nat) :
    t.copyRecord? row (List.replicate t.columns slot) = t.record? row := by
  have hslots : (List.replicate t.columns slot).zipIdx =
      (List.range t.columns).map (slot, ·) := by
    apply List.ext_getElem
    · simp
    · intro column _ _
      simp
  have hcells : ∀ column ∈ List.range t.columns,
      t.get? row column = some ((t.get? row column).getD 0) := by
    intro column hc
    obtain ⟨value, hvalue⟩ := t.exists_cell hr (List.mem_range.mp hc)
    simp [hvalue]
  rw [copyRecord?, hslots, List.mapM_map, record?, mapM_eq_some_map hcells]
  apply mapM_eq_some_map
  intro column hc
  simpa [List.mem_range.mp hc] using hcells column hc

/-! ## Writing -/

section
variable {rows columns : Nat} {entry : Nat → Nat → Nat}

theorem setRecord_tabulate {row : Nat} (hr : row < rows) (values : List Nat) :
    (tabulate rows columns entry).setRecord row values = tabulate rows columns fun r c =>
      if r = row then (values[c]?).getD (entry r c) else entry r c := by
  have hslots : (values.take columns).zipIdx.foldl (fun t slot => t.set row slot.2 slot.1)
      (tabulate rows columns entry) = tabulate rows columns fun r c =>
        if r = row then ((values.take columns)[c]?).getD (entry r c) else entry r c := by
    generalize values.take columns = slots
    -- by the slot that is written last, since the others keep their columns
    induction slots using List.reverseRecOn with
    | nil => simp
    | append_singleton slots value ih =>
      rw [List.zipIdx_append, List.foldl_append, ih, List.zipIdx_singleton, List.foldl_cons,
        List.foldl_nil, zero_add, set_tabulate hr]
      refine tabulate_congr fun r _ c _ => ?_
      rw [getElem?_concat]
      by_cases h : r = row <;> by_cases hc : c = slots.length <;> simp [h, hc]
  refine Eq.trans hslots (tabulate_congr fun r _ c hc => ?_)
  rw [List.getElem?_take_of_lt hc]

end

theorem set?_eq {t : CodeTable} {row column : Nat} (hr : row < t.rows) (hc : column < t.columns)
    (value : Nat) : t.set? row column value = some (t.set row column value) := by
  rw [set?, if_pos]
  rw [t.size_eq]
  exact place_lt hr hc

theorem setRecord?_eq {t : CodeTable} {row : Nat} (hr : row < t.rows) (values : List Nat) :
    t.setRecord? row values = some (t.setRecord row values) := by
  have hslots : ∀ slots : List (Nat × Nat), (∀ slot ∈ slots, slot.2 < t.columns) →
      slots.foldlM (fun t slot => t.set? row slot.2 slot.1) t =
        some (slots.foldl (fun t slot => t.set row slot.2 slot.1) t) := by
    intro slots h
    induction slots generalizing t with
    | nil => rfl
    | cons slot rest ih =>
      obtain ⟨hslot, hrest⟩ := List.forall_mem_cons.mp h
      rw [List.foldlM_cons, set?_eq hr hslot, List.foldl_cons]
      exact ih hr hrest
  apply hslots
  intro slot hslot
  have hlt := (List.mem_zipIdx' hslot).1
  rw [List.length_take] at hlt
  omega

/-- A write to a table: to one cell, or to the leading cells of a row. -/
inductive Write where
  | cell (row column value : Nat)
  | record (row : Nat) (values : List Nat)
deriving DecidableEq, Repr

namespace Write

/-- A write that names a row and a column, or a row, within the given numbers of them. -/
def Within (rows columns : Nat) : Write → Prop
  | cell row column _ => row < rows ∧ column < columns
  | record row _ => row < rows

instance (rows columns : Nat) : (write : Write) → Decidable (write.Within rows columns)
  | cell row column _ => inferInstanceAs (Decidable (row < rows ∧ column < columns))
  | record row _ => inferInstanceAs (Decidable (row < rows))

def perform (t : CodeTable) : Write → CodeTable
  | cell row column value => t.set row column value
  | record row values => t.setRecord row values

def perform? (t : CodeTable) : Write → Option CodeTable
  | cell row column value => t.set? row column value
  | record row values => t.setRecord? row values

/-- The value that a write gives to a cell of the table, if it writes that cell. -/
def value? (row column : Nat) : Write → Option Nat
  | cell r c value => if row = r ∧ column = c then some value else none
  | record r values => if row = r then values[column]? else none

/-- The values that are written to a cell, in order. -/
def written (writes : List Write) (row column : Nat) : List Nat :=
  writes.filterMap (·.value? row column)

section
variable {rows columns : Nat} {entry : Nat → Nat → Nat}

theorem perform_tabulate {write : Write} (h : write.Within rows columns) :
    write.perform (tabulate rows columns entry) =
      tabulate rows columns fun r c => (write.value? r c).getD (entry r c) := by
  cases write with
  | cell row column value =>
    refine (set_tabulate h.1 column value).trans (tabulate_congr fun r _ c _ => ?_)
    by_cases hcell : r = row ∧ c = column <;> simp [value?, hcell]
  | record row values =>
    refine (setRecord_tabulate h values).trans (tabulate_congr fun r _ c _ => ?_)
    by_cases hr : r = row <;> simp [value?, hr]

theorem perform?_eq {t : CodeTable} {write : Write} (h : write.Within t.rows t.columns) :
    write.perform? t = some (write.perform t) := by
  cases write with
  | cell row column value => exact set?_eq h.1 h.2 value
  | record row values => exact setRecord?_eq h values

theorem getLastD_written (write : Write) (rest : List Write) (row column original : Nat) :
    (written (write :: rest) row column).getLastD original =
      (written rest row column).getLastD ((write.value? row column).getD original) := by
  unfold written
  cases h : write.value? row column with
  | none => rw [List.filterMap_cons_none h, Option.getD_none]
  | some value => rw [List.filterMap_cons_some h, List.getLastD_cons, Option.getD_some]

/-- After any writes in range, the entries are the values that were written last. -/
theorem performAll_tabulate {writes : List Write}
    (h : ∀ write ∈ writes, write.Within rows columns) :
    writes.foldl perform (tabulate rows columns entry) =
      tabulate rows columns fun r c => (written writes r c).getLastD (entry r c) := by
  induction writes generalizing entry with
  | nil => rfl
  | cons write rest ih =>
    obtain ⟨hwrite, hrest⟩ := List.forall_mem_cons.mp h
    rw [List.foldl_cons, perform_tabulate hwrite, ih hrest]
    apply tabulate_congr
    intro r _ c _
    rw [getLastD_written]

theorem performAll?_tabulate {writes : List Write}
    (h : ∀ write ∈ writes, write.Within rows columns) :
    writes.foldlM perform? (tabulate rows columns entry) =
      some (writes.foldl perform (tabulate rows columns entry)) := by
  induction writes generalizing entry with
  | nil => rfl
  | cons write rest ih =>
    obtain ⟨hwrite, hrest⟩ := List.forall_mem_cons.mp h
    rw [List.foldlM_cons, List.foldl_cons, perform?_eq hwrite, perform_tabulate hwrite]
    exact ih hrest

end

section
variable {t : CodeTable} {writes : List Write}
  (h : ∀ write ∈ writes, write.Within t.rows t.columns)
include h

theorem performAll_eq : writes.foldl perform t = tabulate t.rows t.columns fun r c =>
    (written writes r c).getLastD ((t.get? r c).getD 0) := by
  conv_lhs => rw [eq_tabulate t]
  exact performAll_tabulate h

theorem performAll?_eq : writes.foldlM perform? t = some (writes.foldl perform t) := by
  rw [eq_tabulate t]
  exact performAll?_tabulate h

end
end Write
end Recoding.CodeTable
