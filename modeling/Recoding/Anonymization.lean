import Recoding.Certified
import Recoding.Check.Release
import Recoding.Report.Summary
import Recoding.Search.Basic
import Recoding.Settings.Basic

/-!
# Anonymizing a dataset

The settings are validated, applied to the data, and searched with; the dataset is
released at the best transformation that the search has found.
-/

namespace Recoding

structure Anonymizer where
  settings : Settings
deriving Repr

structure Anonymized where
  /-- The released data, unless no anonymous transformation was found. -/
  release : Option Release
  report : Report
deriving Repr

/-- What lies outside of a run: the milliseconds that the clock shows at each of its
readings, the randomness of draws that are not deterministic, and the order in which hash
maps list their entries. -/
structure Surroundings where
  clock : Nat → Nat
  entropy : RandomSource
  order : IterationOrder

namespace Anonymizer

def ofSettings (settings : Settings) : Except Failure Anonymizer := do
  settings.validate
  return ⟨settings⟩

def prepare (a : Anonymizer) (table : CodeTable) (hierarchies : List Hierarchy) :
    Except Failure Dataset := do
  let dataset ← Dataset.ofTable table hierarchies a.settings.bounds
  match a.settings.subset? with
  | some rows => dataset.withSubset rows
  | none => return dataset

def checker (a : Anonymizer) (d : Dataset) (order : IterationOrder) : Except Failure Checker :=
  Checker.create d (a.settings.criteria.map Criterion.ofChoice)
    (Metric.ofChoice order a.settings.metric)
    ⟨a.settings.history, a.settings.workers, a.settings.minRecords⟩

structure Outcome where
  levels : Option (List Nat)
  informationLoss : Option Float
  score : Option Float
  release : Option Release
deriving Repr

def Outcome.nothing : Outcome := ⟨none, none, none, none⟩

def Outcome.of (checker : Checker) (space : SolutionSpace) (id : Nat) :
    Except Failure Outcome := do
  let levels ← space.lattice.levelsOf id
  let node ← space.nodeOrUnknown id
  let score ← match node.score with
    | none => .ok none
    | some score => (certified score).map some
  let release ← checker.release levels
  return ⟨some levels, node.loss.map Loss.value, score, some release⟩

/-- Searches the transformations of a dataset and releases it at the best one. -/
def anonymize (a : Anonymizer) (d : Dataset) (surroundings : Surroundings) :
    Except Failure Anonymized := do
  let checker ← a.checker d surroundings.order
  let lattice ← Lattice.ofBounds d.minLevels d.maxLevels
  let search ← Search.ofSettings a.settings.search surroundings.entropy
  let (proved, search, checker, space) :=
    search.traverse surroundings.clock checker (.ofLattice lattice)
  let proved ← proved
  let optimum := search.progress.optimum
  let outcome ← match optimum with
    | some id => Outcome.of checker space id
    | none => .ok Outcome.nothing
  return {
    release := outcome.release
    report := {
      levels := outcome.levels
      informationLoss := outcome.informationLoss
      score := outcome.score
      anonymous := optimum.any fun id => space.has id Mark.anonymous
      optimal := proved && a.settings.search.method == .bestFirst
      criteria := checker.criteria.map Criterion.render
      metric := checker.metric.render
      search := search.render
      counters := checker.counters } }

end Anonymizer
end Recoding
