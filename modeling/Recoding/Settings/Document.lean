import Recoding.Document.Record
import Recoding.Settings.Basic

/-!
# Settings as documents

Every part of the settings may be left out and then has its standard value, except for
what a criterion cannot do without: its threshold, or all amounts at stake once any of
them is given.
-/

namespace Recoding

open Document (Value Rules)

/-! ## Words -/

def SearchMethod.word : SearchMethod → String
  | bestFirst => "BestFirst"
  | privateWalk => "DataDependentDifferentialPrivacy"

def Retention.word : Retention → String
  | all => "All"
  | aboveThreshold => "AboveThreshold"
  | belowThreshold => "BelowThreshold"
  | none => "None"

def Attacker.word : Attacker → String
  | prosecutor => "Prosecutor"
  | journalist => "Journalist"

def Aggregate.word : Aggregate → String
  | sum => "Sum"
  | maximum => "Maximum"
  | arithmeticMean => "ArithmeticMean"
  | geometricMean => "GeometricMean"

def Aggregation.word : Aggregation → String
  | mode => "Mode"
  | median => "Median"

def SearchMethod.ofValue? (r : Rules) : Value → Option SearchMethod :=
  r.choice? word [bestFirst, privateWalk]

def Retention.ofValue? (r : Rules) : Value → Option Retention :=
  r.choice? word [all, aboveThreshold, belowThreshold, none]

def Attacker.ofValue? (r : Rules) : Value → Option Attacker :=
  r.choice? word [prosecutor, journalist]

def Aggregate.ofValue? (r : Rules) : Value → Option Aggregate :=
  r.choice? word [sum, maximum, arithmeticMean, geometricMean]

def Aggregation.ofValue? (r : Rules) : Value → Option Aggregation :=
  r.choice? word [mode, median]

/-! ## Criteria -/

namespace Payoffs

def fieldNames : List String :=
  ["publisher_benefit", "publisher_loss", "adversary_gain", "adversary_cost"]

/-- All four amounts have to be given. -/
def ofValue? (r : Rules) (v : Value) : Option Payoffs := do
  match ← r.record? fieldNames v with
  | [some benefit, some loss, some gain, some cost] =>
    return ⟨← benefit.double?, ← loss.double?, ← gain.double?, ← cost.double?⟩
  | _ => none

def toValue (p : Payoffs) : Value :=
  .object (fieldNames.zip
    [.double p.publisherBenefit, .double p.publisherLoss,
      .double p.adversaryGain, .double p.adversaryCost])

end Payoffs

namespace CriterionChoice

def ofValue? (v : Value) : Option CriterionChoice := do
  let (tag, contents) ← Rules.split? v
  let r := Rules.tagged
  match tag with
  | "Inclusion" =>
    match ← r.record? ["subset"] contents with
    | [subset] =>
      let rows? := Value.nullable? (Value.list? Value.word64?)
      return inclusion (← Value.orStandard none rows? subset)
    | _ => none
  | "KAnonymity" =>
    match ← r.record? ["k"] contents with
    | [some k] => return kAnonymity (← k.word64?)
    | _ => none
  | "DistinctLDiversity" =>
    match ← r.record? ["l"] contents with
    | [some l] => return distinctDiversity (← l.word64?)
    | _ => none
  | "Profitability" =>
    match ← r.record? ["attacker_model", "cost_benefit"] contents with
    | [attacker, payoffs] =>
      return profitability (← Value.orStandard .prosecutor (Attacker.ofValue? r) attacker)
        (← Value.orStandard .standard (Payoffs.ofValue? r) payoffs)
    | _ => none
  | _ => none

def toValue : CriterionChoice → Value
  | inclusion subset => .object
    [("type", .text "Inclusion"),
      ("subset", Value.ofOption (fun rows => .array (rows.map Value.ofCount)) subset)]
  | kAnonymity k => .object [("type", .text "KAnonymity"), ("k", .ofCount k)]
  | distinctDiversity l => .object [("type", .text "DistinctLDiversity"), ("l", .ofCount l)]
  | profitability attacker payoffs => .object
    [("type", .text "Profitability"), ("attacker_model", .text attacker.word),
      ("cost_benefit", payoffs.toValue)]

end CriterionChoice

/-! ## Metric -/

namespace MetricChoice

def aggregate? (contents : Value) : Option Aggregate := do
  match ← Rules.tagged.record? ["aggregate"] contents with
  | [aggregate] => Value.orStandard .sum (Aggregate.ofValue? Rules.tagged) aggregate
  | _ => none

def ofValue? (v : Value) : Option MetricChoice := do
  let (tag, contents) ← Rules.split? v
  match tag with
  | "Height" => return height (← aggregate? contents)
  | "NormalizedEntropy" => return normalizedEntropy (← aggregate? contents)
  | "Discernability" => (Rules.tagged.record? [] contents).map fun _ => discernability
  | "EntropyDomainShare" => (Rules.tagged.record? [] contents).map fun _ => entropyDomainShare
  | _ => none

def toValue : MetricChoice → Value
  | height aggregate => .object [("type", .text "Height"), ("aggregate", .text aggregate.word)]
  | normalizedEntropy aggregate =>
    .object [("type", .text "NormalizedEntropy"), ("aggregate", .text aggregate.word)]
  | discernability => .object [("type", .text "Discernability")]
  | entropyDomainShare => .object [("type", .text "EntropyDomainShare")]

end MetricChoice

/-! ## Search -/

namespace SearchSettings

def fieldNames : List String :=
  ["algorithm", "expansion_limit", "step_limit", "time_limit_ms", "epsilon_search",
    "deterministic", "seed"]

def ofValue? (r : Rules) (v : Value) : Option SearchSettings := do
  let limit := Value.orStandard none (Value.nullable? Value.word64?)
  match ← r.record? fieldNames v with
  | [method, expansions, steps, time, epsilon, deterministic, seed] =>
    return {
      method := ← Value.orStandard standard.method (SearchMethod.ofValue? r) method
      expansionLimit := ← limit expansions
      stepLimit := ← limit steps
      timeLimit := ← limit time
      epsilon := ← Value.orStandard standard.epsilon Value.double? epsilon
      deterministic := ← Value.orStandard standard.deterministic Value.bool? deterministic
      seed := ← Value.orStandard standard.seed Value.word64? seed }
  | _ => none

def toValue (s : SearchSettings) : Value :=
  .object (fieldNames.zip
    [.text s.method.word, Value.ofOption .ofCount s.expansionLimit,
      Value.ofOption .ofCount s.stepLimit, Value.ofOption .ofCount s.timeLimit,
      .double s.epsilon, .bool s.deterministic, .ofCount s.seed])

end SearchSettings

/-! ## History -/

namespace HistoryLimits

def fieldNames : List String :=
  ["storage_strategy", "loss_threshold", "max_entries", "snapshot_size_dataset",
    "snapshot_size_snapshot"]

def ofValue? (r : Rules) (v : Value) : Option HistoryLimits := do
  match ← r.record? fieldNames v with
  | [retention, threshold, entries, datasetRatio, sourceRatio] =>
    return {
      retention := ← Value.orStandard standard.retention (Retention.ofValue? r) retention
      lossThreshold := ← Value.orStandard standard.lossThreshold Value.double? threshold
      maxEntries := ← Value.orStandard standard.maxEntries Value.word64? entries
      datasetRatio := ← Value.orStandard standard.datasetRatio Value.double? datasetRatio
      sourceRatio := ← Value.orStandard standard.sourceRatio Value.double? sourceRatio }
  | _ => none

def toValue (h : HistoryLimits) : Value :=
  .object (fieldNames.zip
    [.text h.retention.word, .double h.lossThreshold, .ofCount h.maxEntries,
      .double h.datasetRatio, .double h.sourceRatio])

end HistoryLimits

/-! ## All settings -/

namespace Settings

def range? (r : Rules) : Value → Option (Nat × Nat)
  | .array items => do
    match ← r.slots? 2 items with
    | [some minimum, some maximum] => return (← minimum.word32?, ← maximum.word32?)
    | _ => none
  | _ => none

def rangeToValue (range : Nat × Nat) : Value := .array [.ofCount range.1, .ofCount range.2]

def fieldNames : List String :=
  ["criteria", "metric", "search", "history", "generalization_bounds", "worker_threads",
    "min_rows_per_worker"]

def ofValue? (r : Rules) (v : Value) : Option Settings := do
  match ← r.record? fieldNames v with
  | [criteria, metric, search, history, bounds, workers, minRecords] =>
    return {
      criteria := ← Value.orStandard standard.criteria
        (Value.list? CriterionChoice.ofValue?) criteria
      metric := ← Value.orStandard standard.metric MetricChoice.ofValue? metric
      search := ← Value.orStandard standard.search (SearchSettings.ofValue? r) search
      history := ← Value.orStandard standard.history (HistoryLimits.ofValue? r) history
      bounds := ← Value.orStandard standard.bounds
        (Value.list? (Value.nullable? (range? r))) bounds
      workers := ← Value.orStandard standard.workers Value.word64? workers
      minRecords := ← Value.orStandard standard.minRecords Value.word64? minRecords }
  | _ => none

def toValue (s : Settings) : Value :=
  .object (fieldNames.zip
    [.array (s.criteria.map CriterionChoice.toValue), s.metric.toValue, s.search.toValue,
      s.history.toValue, .array (s.bounds.map (Value.ofOption rangeToValue)),
      .ofCount s.workers, .ofCount s.minRecords])

end Settings
end Recoding
