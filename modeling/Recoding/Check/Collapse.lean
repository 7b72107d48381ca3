import Recoding.Check.Release

/-!
# Collapsing class by class

The table of aggregated values can be filled one class after the other: the rows are collected by
their generalized codes, and every class writes the collapsed value of each column to all of its
rows. No order of the classes is promised.
-/

namespace Recoding

/-- Adds a row to the class with its key, a new one if no other row has had the key. -/
def collectRow (key : List Nat) (row : Nat) :
    List (List Nat × List Nat) → List (List Nat × List Nat)
  | [] => [(key, [row])]
  | (own, rows) :: rest =>
    if own = key then (own, rows ++ [row]) :: rest
    else (own, rows) :: collectRow key row rest

/-- The classes that records with the given keys form, each a key with its rows. -/
def rowsByKey (keys : List (List Nat)) : List (List Nat × List Nat) :=
  keys.zipIdx.foldl (fun classes (key, row) => collectRow key row classes) []

namespace Microaggregation

def writeColumn (m : Microaggregation) (rows : List Nat) (out : CodeTable) :
    Aggregation × Nat → Option CodeTable
  | (function, column) => do
    let values ← rows.mapM fun row => m.table.get? row column
    let value := function.collapse values
    return rows.foldl (fun out row => out.set row column value) out

def writeClass (m : Microaggregation) (out : CodeTable) (rows : List Nat) : Option CodeTable :=
  m.functions.zipIdx.foldlM (m.writeColumn rows) out

/-- The table that is left when the classes have been written one after the other. -/
def writeClasses (m : Microaggregation) (classes : List (List Nat)) : Option CodeTable :=
  classes.foldlM m.writeClass (.zero m.table.rows m.table.columns)

end Microaggregation
end Recoding
