import Recoding.Decimal.Text

/-!
# Failures

Every way in which reading, checking or searching can fail, by its cause. The wording
is in one place, `Failure.message`; the constructors carry the facts it mentions.
-/

namespace Recoding

/-- A count that has to agree with another one. -/
inductive Extent where
  | recordWidth (record : Nat)
  | columnLength (column : Nat)
  | hierarchies
  | generalizationBounds
  | sensitiveValues
  | aggregatedRecords
  | aggregationFunctions
  | levelBounds
  | levels
deriving DecidableEq, Repr

def Extent.text : Extent → String
  | recordWidth record => "width of record " ++ toString record
  | columnLength column => "length of column " ++ toString column
  | hierarchies => "hierarchies per quasi-identifier"
  | generalizationBounds => "generalization bounds per quasi-identifier"
  | sensitiveValues => "sensitive values per record"
  | aggregatedRecords => "microaggregated records"
  | aggregationFunctions => "aggregation functions per microaggregated attribute"
  | levelBounds => "minimum and maximum levels"
  | levels => "levels per transformation"

inductive Failure where
  /-- The settings file is missing, unreadable or not text. -/
  | unreadableFile
  /-- The settings text does not follow its format, or describes no settings. -/
  | malformedSettings
  | unsupportedExtension (extension : String)
  | noCriteria
  | zeroGroupSize
  | zeroDiversity
  | diversityWithoutSensitive
  | payoffParameters
  | zeroStepLimit
  | snapshotRatios
  | lossThreshold
  | invertedBounds (column minimum maximum : Nat)
  | zeroWorkers
  | hierarchyWithoutLevels (name : String)
  | hierarchyLeaf (name : String) (value code : Nat)
  | hierarchyRow (name : String) (value expected actual : Nat)
  /-- Two values that share a code one level below have different codes at `level`. -/
  | hierarchySplit (name : String) (level : Nat)
  | extent (what : Extent) (expected actual : Nat)
  | uncoveredValue (name : String) (value : Nat)
  | boundsOutOfRange (minimum maximum : Nat) (name : String) (height : Nat)
  | subsetRow (row records : Nat)
  | invertedLevels (minimum maximum : Nat)
  | latticeTooLarge
  | levelOutside (level column minimum maximum : Nat)
  | unknownTransformation (id : Nat)
  | missingExpansionLimit
  | zeroExpansionLimit
  | searchBudget (epsilon : Float)
  | scoreUnsupported (metric : String)
  | metricNotPrepared (metric : String)
  | boundIsNaN
  | boundIsInfinite
  | divisorContainsZero (lower upper : Float)
  /-- Rounding the exact value reaches infinity. -/
  | scoreTooLarge (score : Rat)
  /-- A loss without an exact value was asked for its score. -/
  | lossNotFinite (what : String)
  /-- A double is more than one unit in the last place away from the exact value. -/
  | scoreTooFar (score : Rat)
  /-- A lookup past the end of a table; validated input never leads to one. -/
  | outOfRange
deriving Repr

namespace Failure

/-- The text of a setting or argument that is not acceptable. -/
def invalid (text : String) : String := "Invalid configuration: " ++ text

def interval (text : String) : String := "Interval arithmetic error: " ++ text

/-- The text of a failure. File and format errors depend on the surroundings, and a
lookup out of range is not foreseen, so these have none. -/
def message : Failure → Option String
  | unreadableFile => none
  | malformedSettings => none
  | outOfRange => none
  | unsupportedExtension extension =>
    some (invalid ("Unsupported config file extension: " ++ extension))
  | noCriteria => some (invalid "at least one privacy criterion is required")
  | zeroGroupSize => some (invalid "k must be at least 1")
  | zeroDiversity => some (invalid "l must be at least 1")
  | diversityWithoutSensitive => some (invalid "l-diversity requires a sensitive attribute")
  | payoffParameters =>
    some (invalid "cost-benefit parameters must be finite and non-negative")
  | zeroStepLimit => some (invalid "step limit must be positive")
  | snapshotRatios => some (invalid "snapshot size ratios must lie in [0, 1]")
  | lossThreshold => some (invalid "loss threshold must be finite")
  | invertedBounds column minimum maximum =>
    some (invalid ("attribute " ++ toString column ++ ": minimum level " ++
      toString minimum ++ " exceeds maximum " ++ toString maximum))
  | zeroWorkers => some (invalid "worker_threads and min_rows_per_worker must be positive")
  | hierarchyWithoutLevels name =>
    some (invalid ("hierarchy for attribute " ++ name ++ " must have at least one level"))
  | hierarchyLeaf name value code =>
    some (invalid ("hierarchy for attribute " ++ name ++ " maps value " ++
      toString value ++ " to " ++ toString code ++ " at level 0"))
  | hierarchyRow name value expected actual =>
    some ("Malformed hierarchy for attribute " ++ name ++ ": value " ++ toString value ++
      " has " ++ toString actual ++ " levels, expected " ++ toString expected)
  | hierarchySplit name level =>
    some ("Hierarchy for attribute " ++ name ++ " is not monotone at level " ++
      toString level)
  | extent what expected actual =>
    some ("Dimension mismatch: " ++ what.text ++ " (expected " ++ toString expected ++
      ", got " ++ toString actual ++ ")")
  | uncoveredValue name value =>
    some ("Value " ++ toString value ++ " of attribute " ++ name ++
      " is not covered by its hierarchy")
  | boundsOutOfRange minimum maximum name height =>
    some (invalid ("generalization bounds [" ++ toString minimum ++ ", " ++
      toString maximum ++ "] out of range for attribute " ++ name ++
      " with height " ++ toString height))
  | subsetRow row records =>
    some (invalid ("subset row " ++ toString row ++ " out of range for " ++
      toString records ++ " records"))
  | invertedLevels minimum maximum =>
    some (invalid ("minimum level " ++ toString minimum ++ " exceeds maximum level " ++
      toString maximum))
  | latticeTooLarge => some (invalid "solution space is too large")
  | levelOutside level column minimum maximum =>
    some (invalid ("level " ++ toString level ++ " of attribute " ++ toString column ++
      " outside [" ++ toString minimum ++ ", " ++ toString maximum ++ "]"))
  | unknownTransformation id => some ("Unknown transformation " ++ toString id)
  | missingExpansionLimit =>
    some "You must specify an expansion limit for the differentially private search"
  | zeroExpansionLimit =>
    some "Invalid expansion limit 0: the per-step privacy budget is undefined"
  | searchBudget epsilon =>
    some (invalid ("search budget must be positive and finite, got " ++ Decimal.plain epsilon))
  | scoreUnsupported metric =>
    some ("Metric " ++ metric ++ " does not support differential-privacy scores")
  | metricNotPrepared metric => some ("Metric " ++ metric ++ " has not been initialized")
  | boundIsNaN => some (interval "NaN encountered")
  | boundIsInfinite => some (interval "infinite value encountered")
  | divisorContainsZero lower upper =>
    some (interval ("division by an interval containing zero [" ++ Decimal.plain lower ++
      ", " ++ Decimal.plain upper ++ "]"))
  | scoreTooLarge score =>
    some ("Encountered a value which can not be represented as a double: " ++
      Decimal.rationalText score)
  | lossNotFinite what =>
    some ("Encountered a value which can not be represented as a double: " ++ what)
  | scoreTooFar score =>
    some ("Encountered a value with insufficient precision: " ++ Decimal.rationalText score)

/-- The value that was looked up, or the failure that there is none. -/
def found {α : Type} : Option α → Except Failure α
  | some x => .ok x
  | none => .error outOfRange

end Failure
end Recoding
