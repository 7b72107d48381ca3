import Recoding.Dataset
import Recoding.Grouping.Basic
import Recoding.Loss.Basic
import Recoding.Report.Element

/-!
# Information-loss metrics

A metric measures what a transformation loses, bounds the loss from the levels alone,
and says whether losses never decrease under further generalization. Some metrics also
give an exact score for randomized choices, higher being better. Metrics that depend on
the data are prepared with it once, and have no values before.

Doubles are summed in the order in which a hash map lists its entries. That order is open, so
it is a part of the metric that depends on it.
-/

namespace Recoding

inductive MetricChoice where
  | height (aggregate : Aggregate)
  | normalizedEntropy (aggregate : Aggregate)
  | discernability
  | entropyDomainShare
deriving DecidableEq, Repr

/-- The order in which the hash map of a column lists the values it has counted. -/
structure IterationOrder where
  arrange : Nat → List (Nat × Nat) → List (Nat × Nat)
  perm (column : Nat) (counted : List (Nat × Nat)) : (arrange column counted).Perm counted

/-- Values are listed as they first occur. -/
def IterationOrder.firstSeen : IterationOrder := ⟨fun _ counted => counted, fun _ _ => .refl _⟩

/-- What normalized entropy precomputes. -/
structure EntropyTables where
  /-- The loss of every column at every level. -/
  losses : List (List Float)
  shares : List DomainShare
deriving Repr

structure ShareTables where
  shares : List DomainShare
  /-- The product of the leaf shares. -/
  floor : Float
deriving Repr

inductive Metric where
  /-- The levels themselves. -/
  | height (aggregate : Aggregate)
  /-- Per column, the entropy lost by generalizing relative to suppressing it. -/
  | normalizedEntropy (aggregate : Aggregate) (order : IterationOrder)
      (tables : Option EntropyTables)
  /-- The sum of the squared class sizes within the research subset. -/
  | discernability (records : Option Nat)
  /-- The mean over the records of the loss in domain shares of their class. -/
  | entropyDomainShare (tables : Option ShareTables)

namespace Metric

def ofChoice (order : IterationOrder) : MetricChoice → Metric
  | .height aggregate => height aggregate
  | .normalizedEntropy aggregate => normalizedEntropy aggregate order none
  | .discernability => discernability none
  | .entropyDomainShare => entropyDomainShare none

def name : Metric → String
  | height _ => "Height"
  | normalizedEntropy .. => "Normalized non-uniform entropy"
  | discernability _ => "Discernability"
  | entropyDomainShare _ => "Entropy-based domain share"

/-- Whether a loss never decreases when generalizing further. -/
def isMonotone : Metric → Bool
  | height _ => true
  | normalizedEntropy .. => false
  | discernability _ => true
  | entropyDomainShare _ => true

def supportsScore : Metric → Bool
  | height _ => true
  | normalizedEntropy .. => false
  | discernability _ => true
  | entropyDomainShare _ => true

/-- What the metric precomputed, or the failure that it has not. -/
def prepared {α : Type} (m : Metric) : Option α → Except Failure α
  | some x => .ok x
  | none => .error (.metricNotPrepared m.name)

/-- The entropy lost when counted values are replaced by codes, one code per value. -/
def entropyLost (coded : List (Nat × Nat)) : Float :=
  let total code := ((coded.filter (·.1 = code)).map Prod.snd).sum
  Binary64.sum (coded.map fun (code, n) =>
    Binary64.ofCount n * (Binary64.ofCount (total code) / Binary64.ofCount n).log2)

/-- The entropy lost at every level by values with their numbers, relative to the loss of
collapsing the column. -/
def columnEntropy? (h : Hierarchy) (rows : Nat) (counted : List (Nat × Nat)) :
    Option (List Float) :=
  let whole := Binary64.sum (counted.map fun (_, n) =>
    Binary64.ofCount n * (Binary64.ofCount rows / Binary64.ofCount n).log2)
  (List.range h.height).mapM fun level => do
    let coded ← counted.mapM fun (value, n) => (h.generalize? value level).map (·, n)
    return if 0.0 < whole then entropyLost coded / whole else 0.0

def entropyLosses? (d : Dataset) (order : IterationOrder) : Option (List (List Float)) :=
  d.hierarchies.zipIdx.mapM fun (h, column) => do
    let values ← d.table.column? column
    columnEntropy? h d.records (order.arrange column (DomainShare.tally values))

def prepare (m : Metric) (d : Dataset) : Except Failure Metric :=
  match m with
  | height aggregate => .ok (height aggregate)
  | normalizedEntropy aggregate order _ => do
    let losses ← Failure.found (entropyLosses? d order)
    return normalizedEntropy aggregate order (some ⟨losses, d.shares⟩)
  | discernability _ => .ok (discernability (some d.subsetSize))
  | entropyDomainShare _ =>
    .ok (entropyDomainShare (some ⟨d.shares, DomainShare.leafProduct d.shares⟩))

def heightLoss (aggregate : Aggregate) (levels : List Nat) : Loss :=
  .ofValues aggregate (levels.map Binary64.ofCount)

def entropyLoss (aggregate : Aggregate) (tables : EntropyTables) (levels : List Nat) :
    Except Failure Loss := do
  let values ← Failure.found (levels.zipIdx.mapM fun (level, column) =>
    tables.losses[column]? >>= fun losses => losses[level]?)
  return .ofValues aggregate values

/-- The mean loss in domain shares over the records of the research subset. -/
def shareLoss (tables : ShareTables) (levels : List Nat) (g : Grouping) :
    Except Failure Float := do
  let (weighted, records) ← (g.classes.filter (0 < ·.count)).foldlM
    (fun (weighted, records) e => do
      let loss ← Failure.found (DomainShare.loss? tables.shares tables.floor levels e.key)
      return (weighted + Binary64.ofCount e.count * loss, records + e.count))
    (0.0, 0)
  return if records = 0 then 0.0 else weighted / Binary64.ofCount records

def lowerBound (m : Metric) (levels : List Nat) : Except Failure (Option Loss) :=
  match m with
  | height aggregate => .ok (some (heightLoss aggregate levels))
  | normalizedEntropy aggregate _ tables => do
    let tables ← m.prepared tables
    return some (← entropyLoss aggregate tables levels)
  | discernability records => do
    return some (.scalar (Binary64.ofCount (← m.prepared records)))
  | entropyDomainShare tables => do
    let tables ← m.prepared tables
    let lowest := tables.floor.log
    if lowest == 0.0 then return some (.scalar 0.0)
    let product := Binary64.product ((tables.shares.zip levels).map fun (s, l) => s.minShare l)
    return some (.scalar (Binary64.clampUnit ((product.log - lowest) / -lowest)))

def loss (m : Metric) (levels : List Nat) (g : Grouping) : Except Failure BoundedLoss :=
  match m with
  | height aggregate => .ok (.exact (heightLoss aggregate levels))
  | normalizedEntropy aggregate _ tables => do
    let tables ← m.prepared tables
    return .exact (← entropyLoss aggregate tables levels)
  | discernability _ => do
    let squares := g.classes.map fun e => Binary64.ofCount e.count * Binary64.ofCount e.count
    return ⟨.scalar (Binary64.sum squares), ← m.lowerBound levels⟩
  | entropyDomainShare tables => do
    let tables ← m.prepared tables
    let value ← shareLoss tables levels g
    return ⟨.scalar value, ← m.lowerBound levels⟩

/-- How far one generalized code is from a leaf, on a logarithmic scale. -/
def codeLoss? (s : DomainShare) (code level : Option Nat) : Option Float :=
  if s.size ≤ 1.0 then some 0.0
  else do
    let code ← code
    let level ← level
    return 1.0 + (s.share code level).log / s.size.log

def classLoss (m : Metric) (levels : List Nat) (e : EquivalenceClass) :
    Except Failure Loss :=
  match m with
  | height aggregate => .ok (heightLoss aggregate levels)
  | normalizedEntropy aggregate _ tables => do
    let tables ← m.prepared tables
    let values ← Failure.found (tables.shares.zipIdx.mapM fun (s, i) =>
      codeLoss? s e.key[i]? levels[i]?)
    return .ofValues aggregate values
  | discernability _ => .ok (.scalar (Binary64.ofCount (e.count * e.count % 2 ^ 64)))
  | entropyDomainShare tables => do
    let tables ← m.prepared tables
    let value ← Failure.found (DomainShare.loss? tables.shares tables.floor levels e.key)
    return .scalar value

/-- The exact value of a loss, negated. -/
def negatedLoss (what : String) (x : Float) : Except Failure Rat :=
  match Binary64.toRat? x with
  | some q => .ok (-q)
  | none => .error (.lossNotFinite what)

def score (m : Metric) (levels : List Nat) (g : Grouping) : Except Failure Rat :=
  match m with
  | height aggregate =>
    match aggregate with
    | .sum => .ok (-((levels.sum : Nat) : Int))
    | .maximum => .ok (-((levels.max?.getD 0 : Nat) : Int))
    | .arithmeticMean => .ok (-mkRat levels.sum levels.length)
    | .geometricMean => negatedLoss "height" (heightLoss aggregate levels).value
  | normalizedEntropy .. => .error (.scoreUnsupported m.name)
  | discernability records => do
    let records ← m.prepared records
    let squares : Nat := (g.classes.map fun e => e.count * e.count).sum
    return -mkRat squares records
  | entropyDomainShare tables => do
    let tables ← m.prepared tables
    let value ← shareLoss tables levels g
    negatedLoss m.name value

def render (m : Metric) : Element :=
  let monotone := truthText m.isMonotone
  match m with
  | height aggregate | normalizedEntropy aggregate .. =>
    ((Element.titled m.name).adding "Aggregate function" aggregate.title).adding
      "Monotonic" monotone
  | discernability _ | entropyDomainShare _ =>
    (Element.titled m.name).adding "Monotonic" monotone

end Metric
end Recoding
