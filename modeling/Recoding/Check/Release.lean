import Recoding.Check.Checker

/-!
# Releasing a transformation

The generalized table, with the aggregated attributes collapsed per class: each of their
cells depends only on the values in the records with the same generalized codes.
-/

namespace Recoding

namespace Aggregation

/-- The value with the highest count, the first one of several. -/
def mostFrequent (values : List Nat) : List Nat → Nat × Nat → Nat
  | [], best => best.1
  | v :: rest, best =>
    let n := values.count v
    mostFrequent values rest (if best.2 < n then (v, n) else best)

def collapse (a : Aggregation) (values : List Nat) : Nat :=
  let ascending := values.mergeSort
  match a with
  | mode => mostFrequent values ascending.eraseDups (0, 0)
  | median => (ascending[(values.length - 1) / 2]?).getD 0

end Aggregation

structure Release where
  generalized : CodeTable
  microaggregated : Option CodeTable
  evaluation : Evaluation
deriving Repr

namespace Dataset

def generalizedRecords? (d : Dataset) (levels : List Nat) : Option (List (List Nat)) :=
  (List.range d.records).mapM fun row => d.generalize? row levels

/-- The table with the given records as rows. -/
def tableOf (d : Dataset) (records : List (List Nat)) : CodeTable :=
  let rows := (records.map List.toArray).toArray
  CodeTable.tabulate d.records d.table.columns fun r c => (rows.getD r #[]).getD c 0

end Dataset

namespace Microaggregation

/-- One aggregated column: every value is collapsed over the records with its own key. -/
def collapseColumn (function : Aggregation) (keys : List (List Nat)) (values : List Nat) :
    List Nat :=
  let keyed := keys.zip values
  let collapsed := keys.eraseDups.map fun key =>
    (key, function.collapse ((keyed.filter (·.1 = key)).map Prod.snd))
  keys.map fun key => (collapsed.lookup key).getD 0

/-- The aggregated attributes with the given generalized codes of the records. -/
def collapse? (m : Microaggregation) (keys : List (List Nat)) : Option CodeTable := do
  let columns ← m.functions.zipIdx.mapM fun (function, column) => do
    let values ← m.table.column? column
    return (collapseColumn function keys values).toArray
  let columns := columns.toArray
  return CodeTable.tabulate m.table.rows m.table.columns fun r c =>
    (columns.getD c #[]).getD r 0

end Microaggregation

/-- Generalizes the whole dataset at the given levels, scanning every record. -/
def Checker.release (c : Checker) (levels : List Nat) : Except Failure Release := do
  let keys ← Failure.found (c.dataset.generalizedRecords? levels)
  let (evaluation, _) ← c.run levels ScanPlan.records .loss
  let microaggregated ← match c.dataset.microaggregation with
    | none => .ok none
    | some m => (Failure.found (m.collapse? keys)).map some
  return ⟨c.dataset.tableOf keys, microaggregated, evaluation⟩

end Recoding
