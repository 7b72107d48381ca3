import Recoding.Check.Counters
import Recoding.Criterion.Basic
import Recoding.Grouping.History
import Recoding.Grouping.Scan
import Recoding.Lattice.Space
import Recoding.Loss.Metric

/-!
# Checking transformations

A check groups the dataset at the levels of a transformation, analyzes the classes and
measures the loss. Unless it is told to start from the records, it regroups the smaller
of two sources: the closest snapshot of the history and the previous grouping, if that
is less generalized. Nothing is kept or written to the solution space before the grouping
has been evaluated.
-/

namespace Recoding

/-- Everything that checks share. -/
structure Checker where
  dataset : Dataset
  criteria : List Criterion
  metric : Metric
  /-- Whether classes need distributions of sensitive values. -/
  tracks : Bool
  workers : Nat
  /-- The least number of records that is worth a part of its own. -/
  minRecords : Nat
  history : History
  /-- The levels and grouping of the last successful check. -/
  last : Option (List Nat × Grouping)
  counters : Counters

structure CheckerSettings where
  history : HistoryLimits
  workers : Nat
  minRecords : Nat
deriving Repr

/-- What a check regroups, and how. -/
structure ScanPlan where
  source : ScanSource
  kind : ScanKind
  /-- The number of classes of the source, unless it is the records. -/
  sourceSize : Option Nat
deriving Repr

namespace ScanPlan

def records : ScanPlan := ⟨.records, .full, none⟩

def ofGrouping (g : Grouping) : ScanPlan := ⟨.classes g, .representative, some g.size⟩

def ofSnapshot (s : Snapshot) (dictionary : Dictionary) : ScanPlan :=
  ⟨.snapshot s dictionary, .snapshot, some s.size⟩

/-- The cheapest plan: the previous grouping is preferred only if it is smaller. -/
def choose (dictionary : Dictionary) : Option Snapshot → Option Grouping → ScanPlan
  | some s, some g => if g.size < s.size then ofGrouping g else ofSnapshot s dictionary
  | some s, none => ofSnapshot s dictionary
  | none, some g => ofGrouping g
  | none, none => records

end ScanPlan

namespace Checker

/-- Prepares the criteria in order and then the metric with the dataset. -/
def create (d : Dataset) (criteria : List Criterion) (metric : Metric)
    (settings : CheckerSettings) : Except Failure Checker := do
  let criteria ← criteria.mapM (·.prepare d)
  let metric ← metric.prepare d
  return {
    dataset := d
    criteria, metric
    tracks := criteria.any (·.requirements.distribution)
    workers := max 1 settings.workers
    minRecords := max 1 settings.minRecords
    history := History.empty settings.history d.records
    last := none
    counters := Counters.zero }

def lastGrouping? (c : Checker) : Option Grouping := c.last.map Prod.snd

/-- The last grouping, if it is at most as generalized as the given levels. -/
def previous? (c : Checker) (levels : List Nat) : Option Grouping :=
  match c.last with
  | some (own, g) => if levelsLe own levels then some g else none
  | none => none

/-- Looks for a usable snapshot, counts the lookup, and chooses what to regroup. Starting
from the records needs no lookup. -/
def plan (c : Checker) (levels : List Nat) (fromRecords : Bool) : ScanPlan × Checker :=
  if fromRecords then (ScanPlan.records, c)
  else
    let (found, history) := c.history.findClosest levels
    (ScanPlan.choose history.dictionary (found.map Prod.snd) (c.previous? levels),
      { c with history, counters := c.counters.lookup found.isSome })

def countScan (c : Checker) (kind : ScanKind) : Checker :=
  { c with counters := match kind with
      | .full => c.counters.fullScan
      | .representative => c.counters.representativeScan
      | .snapshot => c.counters.snapshotScan }

def group? (c : Checker) (levels : List Nat) (source : ScanSource) : Option Grouping :=
  c.dataset.group? levels source c.tracks c.workers c.minRecords

/-- Judges and measures a grouping; the grouping is returned with its verdict. -/
def evaluate (c : Checker) (levels : List Nat) (g : Grouping) (kind : ScanKind)
    (objective : Objective) : Except Failure (Evaluation × Grouping) := do
  let (anonymous, g) ← g.analyze levels c.criteria
  let measured ← c.metric.loss levels g
  let lowerBound ← match measured.lowerBound with
    | some bound => .ok (some bound)
    | none => c.metric.lowerBound levels
  let score ← match objective with
    | .score => (c.metric.score levels g).map some
    | .loss => .ok none
  return (⟨anonymous, measured.loss, lowerBound, score, g.size, kind⟩, g)

def run (c : Checker) (levels : List Nat) (plan : ScanPlan) (objective : Objective) :
    Except Failure (Evaluation × Grouping) :=
  match Failure.found (c.group? levels plan.source) with
  | .error e => .error e
  | .ok g => c.evaluate levels g plan.kind objective

def keep (c : Checker) (id : Nat) (levels : List Nat) (g : Grouping) (e : Evaluation)
    (plan : ScanPlan) : Checker :=
  let (stored, history) := c.history.store id levels g e.loss plan.sourceSize
  let counters := if stored then c.counters.stored else c.counters
  { c with
    history := history
    counters := counters.evicted history.counters.evictions
    last := some (levels, g) }

/-- Checks one transformation and records the result in the solution space. An unknown
transformation counts as no check. The grouping is offered to the history before the result
is recorded, and becomes the last one afterwards. -/
def check (c : Checker) (space : SolutionSpace) (id : Nat) (fromRecords : Bool)
    (objective : Objective) : Except Failure Evaluation × Checker × SolutionSpace :=
  match space.lattice.levelsOf id with
  | .error e => (.error e, c, space)
  | .ok levels =>
    let (plan, c) := { c with counters := c.counters.check }.plan levels fromRecords
    let c := c.countScan plan.kind
    match c.run levels plan objective with
    | .error e => (.error e, c, space)
    | .ok (evaluation, g) =>
      let kept := c.keep id levels g evaluation plan
      match space.record id evaluation with
      | .error e => (.error e, { kept with last := c.last }, space)
      | .ok space => (.ok evaluation, kept, space)

def setRetention (c : Checker) (retention : Retention) : Checker :=
  { c with history := c.history.setRetention retention }

def count (c : Checker) (f : Counters → Counters) : Checker :=
  { c with counters := f c.counters }

end Checker
end Recoding
