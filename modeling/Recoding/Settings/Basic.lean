import Recoding.Criterion.Basic
import Recoding.Grouping.History
import Recoding.Loss.Metric
import Recoding.Random.Budget
import Recoding.Search.Settings

/-!
# Settings of an anonymization

All choices of one run, with the values used where none are given, and the checks that
refuse settings under which a run could not succeed.
-/

namespace Recoding

structure Settings where
  /-- The criteria, which are evaluated in order. -/
  criteria : List CriterionChoice
  metric : MetricChoice
  search : SearchSettings
  history : HistoryLimits
  /-- Optional ranges of levels, one per attribute; none at all leave all attributes free. -/
  bounds : List (Option (Nat × Nat))
  /-- The number of parts in which all records are scanned. -/
  workers : Nat
  /-- The least number of records that is worth a part of its own. -/
  minRecords : Nat
deriving Repr

namespace Settings

def standard : Settings where
  criteria := [.inclusion none]
  metric := .height .sum
  search := .standard
  history := .standard
  bounds := []
  workers := 1
  minRecords := 10000

/-- What is wrong with a criterion by itself. -/
def criterionFault? : CriterionChoice → Option Failure
  | .inclusion _ => none
  | .kAnonymity k => if k = 0 then some .zeroGroupSize else none
  | .distinctDiversity l => if l = 0 then some .zeroDiversity else none
  | .profitability _ payoffs => if payoffs.isSound then none else some .payoffParameters

/-- A private walk needs a budget per step and a metric with scores. -/
def checkSearch (s : Settings) : Except Failure Unit :=
  match s.search.method with
  | .bestFirst => .ok ()
  | .privateWalk => do
    let _ ← budgetPerStep s.search.epsilon s.search.expansionLimit
    match s.metric with
    | .normalizedEntropy _ => .error (.scoreUnsupported "Normalized entropy")
    | _ => return

def isRatio (x : Float) : Bool := 0.0 ≤ x && x ≤ 1.0

/-- The first range of levels whose ends are in the wrong order. `column` is the attribute
of the first range. -/
def boundsFault? (column : Nat) : List (Option (Nat × Nat)) → Option Failure
  | [] => none
  | some (minimum, maximum) :: rest =>
    if maximum < minimum then some (.invertedBounds column minimum maximum)
    else boundsFault? (column + 1) rest
  | none :: rest => boundsFault? (column + 1) rest

/-- The failure of a check that does not hold. -/
def require (holds : Bool) (failure : Failure) : Except Failure Unit :=
  if holds then .ok () else .error failure

/-- The checks that are made before a run, in order. -/
def validate (s : Settings) : Except Failure Unit := do
  require (!s.criteria.isEmpty) .noCriteria
  match s.criteria.findSome? criterionFault? with
  | some fault => throw fault
  | none => pure ()
  s.checkSearch
  require (s.search.stepLimit != some 0) .zeroStepLimit
  require (isRatio s.history.datasetRatio && isRatio s.history.sourceRatio) .snapshotRatios
  require s.history.lossThreshold.isFinite .lossThreshold
  match boundsFault? 0 s.bounds with
  | some fault => throw fault
  | none => pure ()
  require (s.workers != 0 && s.minRecords != 0) .zeroWorkers

def subset? (s : Settings) : Option (List Nat) :=
  s.criteria.findSome? fun
    | .inclusion subset => subset
    | _ => none

/-! ## Equality

Numbers are compared as numbers, so settings that contain NaN do not equal themselves. -/

def samePayoffs (a b : Payoffs) : Bool :=
  a.publisherBenefit == b.publisherBenefit && a.publisherLoss == b.publisherLoss &&
    a.adversaryGain == b.adversaryGain && a.adversaryCost == b.adversaryCost

def sameCriterion : CriterionChoice → CriterionChoice → Bool
  | .inclusion a, .inclusion b => a == b
  | .kAnonymity a, .kAnonymity b => a == b
  | .distinctDiversity a, .distinctDiversity b => a == b
  | .profitability a p, .profitability b q => a == b && samePayoffs p q
  | _, _ => false

def sameSearch (a b : SearchSettings) : Bool :=
  a.method == b.method && a.expansionLimit == b.expansionLimit &&
    a.stepLimit == b.stepLimit && a.timeLimit == b.timeLimit && a.epsilon == b.epsilon &&
    a.deterministic == b.deterministic && a.seed == b.seed

def sameHistory (a b : HistoryLimits) : Bool :=
  a.retention == b.retention && a.lossThreshold == b.lossThreshold &&
    a.maxEntries == b.maxEntries && a.datasetRatio == b.datasetRatio &&
    a.sourceRatio == b.sourceRatio

def same (a b : Settings) : Bool :=
  a.criteria.length == b.criteria.length &&
    (a.criteria.zip b.criteria).all (fun (x, y) => sameCriterion x y) &&
    a.metric == b.metric && sameSearch a.search b.search && sameHistory a.history b.history &&
    a.bounds == b.bounds && a.workers == b.workers && a.minRecords == b.minRecords

end Settings
end Recoding
