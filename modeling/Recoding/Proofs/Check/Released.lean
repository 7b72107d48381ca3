import Recoding.Check.Release
import Recoding.Proofs.Check.Total

/-!
# What is released

A release is a table of generalized records, a table of aggregated values and an evaluation.
Aggregated values are collapsed over the records with equal keys, so every cell is a function of
the multiset of the values that belong to one key.
-/

namespace Recoding

/-! ## Aggregated values -/

namespace Aggregation

theorem mostFrequent_perm {values others : List Nat} (h : values.Perm others) (vs : List Nat)
    (best : Nat × Nat) : mostFrequent values vs best = mostFrequent others vs best := by
  induction vs generalizing best with
  | nil => rfl
  | cons v rest ih => rw [mostFrequent, mostFrequent, h.count_eq, ih]

theorem sorted_mergeSort (values : List Nat) : values.mergeSort.Pairwise (· ≤ ·) := by
  simpa using List.pairwise_mergeSort' (· ≤ ·) values

theorem collapse_perm (a : Aggregation) {values others : List Nat} (h : values.Perm others) :
    a.collapse values = a.collapse others := by
  have hsort : values.mergeSort = others.mergeSort :=
    List.Perm.eq_of_pairwise (fun _ _ _ _ => Nat.le_antisymm) (sorted_mergeSort values)
      (sorted_mergeSort others)
      ((List.mergeSort_perm _ _).trans (h.trans (List.mergeSort_perm _ _).symm))
  cases a with
  | mode => rw [collapse, collapse, hsort, mostFrequent_perm h]
  | median => rw [collapse, collapse, hsort, h.length_eq]

end Aggregation

namespace Microaggregation

theorem collapseColumn_map (function : Aggregation) (rows : List Nat) (key : Nat → List Nat)
    (value : Nat → Nat) : collapseColumn function (rows.map key) (rows.map value) =
      rows.map fun row => function.collapse ((rows.filter (key · = key row)).map value) := by
  unfold collapseColumn
  rw [List.map_map]
  refine List.map_congr_left fun row hrow => ?_
  have hkey : key row ∈ (rows.map key).eraseDups :=
    List.mem_eraseDups.mpr (List.mem_map_of_mem hrow)
  have hvalues : (((rows.map key).zip (rows.map value)).filter (·.1 = key row)).map Prod.snd =
      (rows.filter (key · = key row)).map value := by
    rw [List.zip_map', List.filter_map, List.map_map]
    rfl
  rw [Function.comp, lookup_map (fun k => function.collapse
    ((((rows.map key).zip (rows.map value)).filter (·.1 = k)).map Prod.snd)) hkey,
    Option.getD_some, hvalues]

/-- What becomes of a column of a row among rows with the given keys. -/
def collapsed (m : Microaggregation) (key : Nat → List Nat) (row column : Nat) : Nat :=
  (m.functions.getD column .mode).collapse (((List.range m.table.rows).filter
    (key · = key row)).map fun other => (m.table.get? other column).getD 0)

theorem collapse?_eq {m : Microaggregation} (hm : m.functions.length = m.table.columns)
    (key : Nat → List Nat) : m.collapse? ((List.range m.table.rows).map key) =
      some (.tabulate m.table.rows m.table.columns (m.collapsed key)) := by
  have hcolumns : (m.functions.zipIdx.mapM fun p => do
      let values ← m.table.column? p.2
      return (collapseColumn p.1 ((List.range m.table.rows).map key) values).toArray) =
      some (m.functions.zipIdx.map fun p =>
        ((List.range m.table.rows).map fun row => m.collapsed key row p.2).toArray) := by
    refine mapM_eq_some_map fun p hp => ?_
    obtain ⟨hlt, hfunction⟩ := List.mem_zipIdx' hp
    rw [CodeTable.column?_eq (hm ▸ hlt), Option.bind_eq_bind, Option.bind_some,
      collapseColumn_map]
    have hgetD : m.functions.getD p.2 .mode = p.1 := by
      rw [List.getD_eq_getElem?_getD, List.getElem?_eq_getElem hlt, ← hfunction, Option.getD_some]
    unfold collapsed
    rw [hgetD]
    rfl
  unfold collapse?
  rw [hcolumns, Option.bind_eq_bind, Option.bind_some]
  refine congrArg some (CodeTable.tabulate_congr fun row hr column hc => ?_)
  simp [hm, hc, hr, Array.getD]

end Microaggregation

/-! ## Releases -/

def Dataset.aggregated (d : Dataset) (levels : List Nat) : Option CodeTable :=
  d.microaggregation.map fun m =>
    .tabulate m.table.rows m.table.columns (m.collapsed (d.key levels))

theorem Dataset.WellFormed.generalizedRecords_eq {d : Dataset} (hd : d.WellFormed)
    {levels : List Nat} (hl : d.Admits levels) :
    d.generalizedRecords? levels = some ((List.range d.records).map (d.key levels)) :=
  mapM_eq_some_map fun _ hrow => hd.generalize_eq (List.mem_range.mp hrow) hl

theorem Checker.release_eq {c : Checker} (hd : c.dataset.WellFormed) {levels : List Nat}
    (hl : c.dataset.Admits levels) : c.release levels =
      (c.fullScan levels .loss).map fun r =>
        ⟨c.dataset.tableOf ((List.range c.dataset.records).map (c.dataset.key levels)),
          c.dataset.aggregated levels, r.1⟩ := by
  have hrun : c.run levels ScanPlan.records .loss = c.fullScan levels .loss := by
    rw [run, group?, ScanPlan.records, hd.group_records hl]
    rfl
  unfold release
  rw [hd.generalizedRecords_eq hl, hrun]
  cases c.fullScan levels .loss with
  | error failure => rfl
  | ok r =>
    unfold Dataset.aggregated
    cases hm : c.dataset.microaggregation with
    | none => rfl
    | some m =>
      obtain ⟨hrows, hfunctions⟩ := hd.aggregated_rows m (by simp [hm])
      have hcollapse : m.collapse? ((List.range c.dataset.records).map (c.dataset.key levels)) =
          some (.tabulate m.table.rows m.table.columns (m.collapsed (c.dataset.key levels))) := by
        rw [← hrows]
        exact Microaggregation.collapse?_eq hfunctions _
      simp only [Failure.found, ok_bind, hcollapse, map_ok]
      rfl

theorem Checker.exists_release {c : Checker} (hd : c.dataset.WellFormed) (hc : c.Ready)
    {levels : List Nat} (hl : c.dataset.Admits levels) : ∃ release,
      c.release levels = .ok release ∧ release.microaggregated = c.dataset.aggregated levels := by
  obtain ⟨e, g, hscan⟩ := fullScan_ok hl hd hc
  exact ⟨_, by rw [release_eq hd hl, hscan, map_ok], rfl⟩

end Recoding
