import Recoding.Dataset
import Recoding.Grouping.Snapshot

/-!
# Scans

A scan generalizes records to given levels and groups them. Classes of a less
generalized grouping never split under further generalization, so a scan may visit one
representative per class of such a grouping, or of a snapshot of it, instead of every
record. A long scan of all records may be split into contiguous parts.
-/

namespace Recoding

inductive ScanSource where
  /-- Every record. -/
  | records
  /-- One representative per class of a grouping. -/
  | classes (grouping : Grouping)
  /-- One representative per class of a snapshot. -/
  | snapshot (snapshot : Snapshot) (dictionary : Dictionary)
deriving Repr

/-- The sensitive value of a record: `none` if the record does not exist, and no value
if there is no sensitive attribute. -/
def Dataset.sensitiveOf? (d : Dataset) (row : Nat) : Option (Option Nat) :=
  match d.sensitive with
  | some values => values[row]?.map some
  | none => some none

namespace Dataset

/-- What one record contributes at the given levels. -/
def recordContribution? (d : Dataset) (levels : List Nat) (row : Nat) :
    Option Contribution := do
  let key ← d.generalize? row levels
  let sensitive ← d.sensitiveOf? row
  let inSubset ← d.inSubset? row
  return Contribution.ofRecord key row inSubset sensitive

def classContribution? (d : Dataset) (levels : List Nat) (e : EquivalenceClass) :
    Option Contribution :=
  (d.generalize? e.representative levels).map e.contribution

def snapshotContribution? (d : Dataset) (levels : List Nat) (dictionary : Dictionary)
    (r : SnapshotRecord) : Option Contribution := do
  let key ← d.generalize? r.representative levels
  return ⟨key, r.representative, r.count, r.total, r.distribution >>= dictionary.find?⟩

def scan? (d : Dataset) (levels : List Nat) : ScanSource → Option (List Contribution)
  | .records => (List.range d.records).mapM (d.recordContribution? levels)
  | .classes g => g.classes.mapM (d.classContribution? levels)
  | .snapshot s dictionary =>
    s.records? >>= List.mapM (d.snapshotContribution? levels dictionary)

/-- The number of parts in which all records are scanned: no more than there are workers,
each of at least the given number of records where that is possible. -/
def partCount (d : Dataset) (workers minRecords : Nat) : Nat :=
  max 1 (min workers (d.records / max 1 minRecords))

/-- The records of one of equally long contiguous parts. -/
def part (d : Dataset) (parts index : Nat) : List Nat :=
  let length := (d.records + parts - 1) / parts
  (List.range length).filterMap fun offset =>
    let row := index * length + offset
    if row < d.records then some row else none

def groupRecords? (d : Dataset) (levels : List Nat) (tracks : Bool) (rows : List Nat) :
    Option Grouping :=
  (rows.mapM (d.recordContribution? levels)).map (Grouping.ofContributions tracks)

/-- The grouping of all records, scanned in parts whose groupings are merged in order. -/
def groupInParts? (d : Dataset) (levels : List Nat) (tracks : Bool) (parts : Nat) :
    Option Grouping := do
  let partials ← (List.range parts).mapM fun i => d.groupRecords? levels tracks (d.part parts i)
  match partials with
  | [] => return Grouping.empty tracks
  | first :: rest => return rest.foldl Grouping.merge first

/-- The grouping of what a scan visits. Only a scan of all records is split into parts. -/
def group? (d : Dataset) (levels : List Nat) (source : ScanSource) (tracks : Bool)
    (workers minRecords : Nat) : Option Grouping :=
  let parts := match source with
    | .records => d.partCount workers minRecords
    | _ => 1
  if parts = 1 then (d.scan? levels source).map (Grouping.ofContributions tracks)
  else d.groupInParts? levels tracks parts

end Dataset
end Recoding
