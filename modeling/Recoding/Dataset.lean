import Recoding.CodeTable
import Recoding.Hierarchy.Share

/-!
# Datasets

The coded quasi-identifiers with one hierarchy per column, the range of levels a search
may use, and the optional parts: a sensitive attribute, a research subset, and
attributes that are aggregated per class instead of being generalized.
-/

namespace Recoding

/-- How the values of an aggregated attribute are collapsed within one class. -/
inductive Aggregation where
  /-- The most frequent code, the smallest one of several. -/
  | mode
  /-- The lower median of the codes. -/
  | median
deriving DecidableEq, Repr

/-- Attributes that are aggregated per class, with one function per column. -/
structure Microaggregation where
  table : CodeTable
  functions : List Aggregation
deriving DecidableEq, Repr

/-- The input of one anonymization. -/
structure Dataset where
  table : CodeTable
  hierarchies : List Hierarchy
  minLevels : List Nat
  maxLevels : List Nat
  sensitive : Option (Array Nat)
  /-- Membership of every record in the research subset; all records without one. -/
  subset : Option (Array Bool)
  microaggregation : Option Microaggregation
deriving DecidableEq, Repr

namespace Dataset

/-- The first value of a column that its hierarchy does not cover. -/
def uncovered? (table : CodeTable) : List (Hierarchy × Nat) → Option Failure
  | [] => none
  | (h, column) :: rest =>
    match ((table.column? column).getD []).find? (!h.covers ·) with
    | some value => some (.uncoveredValue h.name value)
    | none => uncovered? table rest

/-- The range of levels of an attribute: the whole hierarchy unless it is bounded. Levels are
numbers of 32 bits. -/
def levelRange (h : Hierarchy) (bounds : Option (Nat × Nat)) : Except Failure (Nat × Nat) :=
  let top := (h.height - 1) % 2 ^ 32
  let (minimum, maximum) := bounds.getD (0, top)
  if maximum < minimum ∨ top < maximum then
    .error (.boundsOutOfRange minimum maximum h.name h.height)
  else .ok (minimum, maximum)

/-- The dataset of a table and its hierarchies. No bounds at all leave every attribute
unbounded; otherwise there is one optional range per attribute. -/
def ofTable (table : CodeTable) (hierarchies : List Hierarchy)
    (bounds : List (Option (Nat × Nat))) : Except Failure Dataset :=
  if hierarchies.length ≠ table.columns then
    .error (.extent .hierarchies table.columns hierarchies.length)
  else if bounds ≠ [] ∧ bounds.length ≠ hierarchies.length then
    .error (.extent .generalizationBounds hierarchies.length bounds.length)
  else match uncovered? table hierarchies.zipIdx with
    | some fault => .error fault
    | none => do
      let ranges ← hierarchies.zipIdx.mapM fun (h, i) => levelRange h (bounds[i]?.join)
      return {
        table, hierarchies
        minLevels := ranges.map Prod.fst
        maxLevels := ranges.map Prod.snd
        sensitive := none
        subset := none
        microaggregation := none }

/-- Attaches a sensitive attribute with one value per record. -/
def withSensitive (d : Dataset) (values : List Nat) : Except Failure Dataset :=
  if values.length ≠ d.table.rows then
    .error (.extent .sensitiveValues d.table.rows values.length)
  else .ok { d with sensitive := some values.toArray }

def withSubset (d : Dataset) (rows : List Nat) : Except Failure Dataset :=
  match rows.find? (d.table.rows ≤ ·) with
  | some row => .error (.subsetRow row d.table.rows)
  | none =>
    let members := Array.replicate d.table.rows false
    .ok { d with subset := some (rows.foldl (·.setIfInBounds · true) members) }

def withMicroaggregation (d : Dataset) (m : Microaggregation) : Except Failure Dataset :=
  if m.table.rows ≠ d.table.rows then
    .error (.extent .aggregatedRecords d.table.rows m.table.rows)
  else if m.functions.length ≠ m.table.columns then
    .error (.extent .aggregationFunctions m.table.columns m.functions.length)
  else .ok { d with microaggregation := some m }

def records (d : Dataset) : Nat := d.table.rows

/-- Whether a record belongs to the research subset, if there is such a record. -/
def inSubset? (d : Dataset) (row : Nat) : Option Bool :=
  match d.subset with
  | some members => members[row]?
  | none => some true

def subsetSize (d : Dataset) : Nat :=
  match d.subset with
  | some members => members.toList.count true
  | none => d.table.rows

def shares (d : Dataset) : List DomainShare := d.hierarchies.map DomainShare.ofHierarchy

/-- The codes of the remaining columns of a record, each at the level of its attribute. -/
def generalizeFrom? (d : Dataset) (row : Nat) :
    Nat → List Hierarchy → List Nat → Option (List Nat)
  | _, [], _ => some []
  | _, _ :: _, [] => none
  | column, h :: hierarchies, level :: levels => do
    let value ← d.table.get? row column
    let code ← h.generalize? value level
    let codes ← d.generalizeFrom? row (column + 1) hierarchies levels
    return code :: codes

/-- The record generalized to the given levels, if the record and the levels exist. -/
def generalize? (d : Dataset) (row : Nat) (levels : List Nat) : Option (List Nat) :=
  d.generalizeFrom? row 0 d.hierarchies levels

end Dataset
end Recoding
