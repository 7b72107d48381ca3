import Recoding.Failure

/-!
# Tables of coded values

One row per record and one column per attribute, stored column after column. A cell is
addressed by its place in that order, so column operations are contiguous.
-/

namespace Recoding

structure CodeTable where
  rows : Nat
  columns : Nat
  cells : Array Nat
  size_eq : cells.size = rows * columns
deriving DecidableEq, Repr

namespace CodeTable

/-- The table whose cell in row `r` and column `c` is `entry r c`. -/
def tabulate (rows columns : Nat) (entry : Nat → Nat → Nat) : CodeTable where
  rows := rows
  columns := columns
  cells := Array.ofFn fun i : Fin (rows * columns) => entry (i.val % rows) (i.val / rows)
  size_eq := Array.size_ofFn

def zero (rows columns : Nat) : CodeTable := tabulate rows columns fun _ _ => 0

/-- The cell in a row and column, if the place they address exists. -/
def get? (t : CodeTable) (row column : Nat) : Option Nat := t.cells[column * t.rows + row]?

/-- The table with one cell overwritten; a place outside the table changes nothing. -/
def set (t : CodeTable) (row column value : Nat) : CodeTable where
  rows := t.rows
  columns := t.columns
  cells := t.cells.setIfInBounds (column * t.rows + row) value
  size_eq := Array.size_setIfInBounds.trans t.size_eq

/-- The table with one cell overwritten, if the place it addresses exists. -/
def set? (t : CodeTable) (row column value : Nat) : Option CodeTable :=
  if column * t.rows + row < t.cells.size then some (t.set row column value) else none

def column? (t : CodeTable) (column : Nat) : Option (List Nat) :=
  (List.range t.rows).mapM fun row => t.get? row column

def record? (t : CodeTable) (row : Nat) : Option (List Nat) :=
  (List.range t.columns).mapM fun column => t.get? row column

/-- The buffer with its first slots replaced by a record; slots beyond it keep their value. -/
def copyRecord? (t : CodeTable) (row : Nat) (buffer : List Nat) : Option (List Nat) :=
  buffer.zipIdx.mapM fun (slot, column) =>
    if column < t.columns then t.get? row column else some slot

/-- The table with the leading cells of a row overwritten. Values beyond the columns are
ignored, and cells beyond the values stay as they are. -/
def setRecord (t : CodeTable) (row : Nat) (values : List Nat) : CodeTable :=
  (values.take t.columns).zipIdx.foldl (fun t (value, column) => t.set row column value) t

/-- The table with the leading cells of a row overwritten, if all places they address exist. -/
def setRecord? (t : CodeTable) (row : Nat) (values : List Nat) : Option CodeTable :=
  (values.take t.columns).zipIdx.foldlM (fun t (value, column) => t.set? row column value) t

/-- The first of some lists that does not have a length, with its place. -/
def misfit? (length : Nat) (lists : List (List Nat)) : Option (List Nat × Nat) :=
  lists.zipIdx.find? fun (list, _) => list.length ≠ length

theorem misfit?_eq_none {length : Nat} {lists : List (List Nat)} :
    misfit? length lists = none ↔ ∀ list ∈ lists, list.length = length := by
  rw [misfit?, List.find?_eq_none]
  constructor
  · intro h list hlist
    obtain ⟨index, hindex⟩ := List.mem_iff_getElem?.mp hlist
    simpa using h (list, index) (List.mk_mem_zipIdx_iff_getElem?.mpr hindex)
  · intro h p hp
    simpa using h p.1 (List.mem_of_getElem? (List.mem_zipIdx_iff_getElem?.mp hp))

theorem size_flatten {height : Nat} {columns : List (List Nat)}
    (h : misfit? height columns = none) :
    columns.flatten.toArray.size = height * columns.length := by
  rw [misfit?_eq_none] at h
  induction columns with
  | nil => rfl
  | cons column rest ih =>
    have hrest := ih fun other hother => h other (List.mem_cons_of_mem _ hother)
    simp only [List.size_toArray] at hrest ⊢
    rw [List.flatten_cons, List.length_append, hrest, h column List.mem_cons_self,
      List.length_cons, Nat.mul_succ, Nat.add_comm]

/-- The table with the given records as rows; all records have the width of the first. They
are written to a table of zeros one after the other. -/
def ofRecords (records : List (List Nat)) : Except Failure CodeTable :=
  let width := (records.headD []).length
  match misfit? width records with
  | some (record, index) => .error (.extent (.recordWidth index) width record.length)
  | none => Failure.found (records.zipIdx.foldlM (fun t (record, row) => t.setRecord? row record)
      (zero records.length width))

/-- The table with the given columns; all columns have the length of the first. Their values
are the cells as they are. -/
def ofColumns (columns : List (List Nat)) : Except Failure CodeTable :=
  let height := (columns.headD []).length
  match h : misfit? height columns with
  | some (column, index) => .error (.extent (.columnLength index) height column.length)
  | none => .ok ⟨height, columns.length, columns.flatten.toArray, size_flatten h⟩

end CodeTable
end Recoding
